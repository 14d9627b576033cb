import CodeConverter.Proofs.Indent.Nesting
import CodeConverter.Proofs.Program.Name

/-!
# Where variables are declared

Lines bind names: an assignment in its own block, a header in the block it announces (`Brings`). A
line closes the blocks deeper than its own, so which bindings are still in force can be told from
the lines alone (`boundBy`). The stack of names that a conversion keeps says the same
(`Run.tracks`), which decides whether an assignment is written as a declaration
(`declares_iff_unbound`).
-/

namespace CodeConverter.Indent

open Text Program Pattern
open List hiding splitOn

variable {n : Nat} {line : Text} {lines : List Text}

/-- What a line binds: the number of blocks open at it, the name it assigns in the innermost of
them, and the names that its own block starts with. -/
structure Binding where
  level : Nat
  own : List Text
  given : List Text

/-- Whether a name is bound in the `n` outermost blocks by some lines, the latest first. -/
def boundBy (x : Text) : Nat → List Binding → Bool
  | _, [] => false
  | n, b :: past => (b.own.contains x && b.level ≤ n) || (b.given.contains x && b.level + 1 ≤ n) ||
      boundBy x (min n b.level) past

/-- A name alone, no member or element. -/
def isBare (target : Text) : Bool :=
  !(target.contains '.' || target.contains '[')

/-- The name that a line assigns in its block. Class bodies bind none. -/
def assigned (s : State) (l : Classified) : List Text :=
  if l.kind = .assignment ∧ isBare (l.group 1) = true ∧
    s.scopes.head? ≠ some .classBody then [l.group 1] else []

/-- A parameter as it is written: a name behind stars or none, with an annotation, a default value
or nothing behind it, or a sign between two kinds of parameters. -/
inductive IsFormal : Text → Option Text → Prop
  | named {stars name gap rest : Text} : stars ∈ ["".toList, "*".toList, "**".toList] →
      IsIdentifier name → (∀ c ∈ gap, isBlank c = true) → (∀ c ∈ rest.head?, c = ':' ∨ c = '=') →
      IsFormal (stars ++ (name ++ (gap ++ rest))) (some name)
  | sign {c : Char} : c ∈ ['*', '/'] → IsFormal [c] none

/-- The text lists the parameters of a function, which are these and perhaps a receiver. A `lambda`
would have commas of its own. -/
def Signature (t : Text) (names : List Text) : Prop :=
  ¬ "lambda".toList <:+: t ∧ ∃ formals, Forall₂ IsFormal (splitArguments t) formals ∧
    names = (formals.filterMap id).filter fun name => name ≠ "self".toList ∧ name ≠ "cls".toList

/-- The text lists the targets of a loop: names between commas, perhaps in parentheses. -/
def Targets (t : Text) (names : List Text) : Prop :=
  ∃ inner, (t = inner ∨ t = '(' :: (inner ++ ")")) ∧ (splitOn ',' inner).map strip = names ∧
    ∀ name ∈ names, IsIdentifier name

/-- A line brings names to the block that it opens: parameters, the variables of a loop, or the name
of a caught exception. A range makes a loop if it has one to three arguments. -/
inductive Brings (c : Conversion) (l : Classified) : List Text → Prop
  | function {names : List Text} : l.kind = .functionHeader → Signature (l.group 2) names →
      Brings c l names
  | range {arguments : Text} : l.kind = .rangeForHeader →
      c.expression (fun _ => false) (l.group 2) = .ok arguments →
      Brings c l (if (splitArguments arguments).length ∈ [1, 2, 3] then [l.group 1] else [])
  | loop {names : List Text} : l.kind = .forHeader → Targets (l.group 1) names →
      Brings c l (names ++
        if c = .toJava ∧ ((viewOf ["items"]).matchStart (l.group 2)).isSome = true ∧
          names.length = 2 then ["entry".toList]
        else [])
  | caught : l.kind = .exceptHeader → Brings c l [if (l.group 2).isEmpty then "e" else l.group 2]
  | other : l.kind ∉ [.functionHeader, .rangeForHeader, .forHeader, .exceptHeader] → Brings c l []

/-- The names that a conversion attaches to the block of a header. -/
def attached (c : Conversion) (l : Classified) : List Text :=
  match l.kind with
  | .functionHeader => Parameter.names (l.group 2)
  | .rangeForHeader =>
    if (c.expression (fun _ => false) (l.group 2)).toOption.any fun arguments =>
      (Loop.countingLoop (l.group 1) (splitArguments arguments) c.loopDeclaration).isSome
        then [l.group 1] else []
  | .forHeader => loopTargets (l.group 1) ++
    if c = .toJava ∧ ((viewOf ["items"]).matchStart (l.group 2)).isSome = true ∧
      (loopTargets (l.group 1)).length = 2 then ["entry".toList]
    else []
  | .exceptHeader => [if (l.group 2).isEmpty then "e" else l.group 2]
  | _ => []

/-- What a line binds in a state. Lines that leave the blocks alone bind nothing. -/
def Records (c : Conversion) (s : State) (line : Text) (bound : List Binding) : Prop :=
  if isPassive s line then bound = [] else
    ∃ u, settleBlocks c { s with hasContent := true } (width line) = .ok u ∧
      if startsComment (strip line) then bound = [⟨u.widths.length, [], []⟩]
      else ∃ names, Brings c (classified (strip line)) names ∧
        bound = [⟨u.widths.length, assigned u (classified (strip line)), names⟩]

/-- Some lines lead to a state and bind names, the latest first. -/
inductive Run (c : Conversion) : List Text → State → List Binding → Prop
  | nil : Run c [] State.initial []
  | line {before : List Text} {s t : State} {past bound : List Binding} {line : Text} :
      Run c before s past →
      visitLine c s line = .ok t → Records c s line bound →
      Run c (before ++ [line]) t (bound ++ past)

/-- The names of the open blocks and of the announced one. -/
def State.blocks (s : State) : List (List Text) :=
  if s.pendingScope.isSome then s.pendingNames :: s.names else s.names

/-- Whether a name is in one of the `n` outermost blocks. -/
def boundIn (x : Text) (n : Nat) (blocks : List (List Text)) : Bool :=
  (blocks.drop (blocks.length - n)).any (·.contains x)

/-- The blocks hold what some lines bind. -/
def Tracks (past : List Binding) (blocks : List (List Text)) : Prop :=
  ∀ x n, IsName x → n ≤ blocks.length → boundIn x n blocks = boundBy x n past

/-- A visited line binds names: those it assigns and that are new, and those of an announced
block. -/
structure Binds (own given : List Text) (s t : State) : Prop where
  names : ∃ inner outer, s.names = inner :: outer ∧
    t.names = (own.filter (fun x => !s.isBound x) ++ inner) :: outer
  pending : t.pendingScope.isSome = true → ∀ x, IsName x →
    t.pendingNames.contains x = given.contains x

variable {c : Conversion} {s t u : State} {l : Classified} {past : List Binding}
    {blocks : List (List Text)} {x : Text}

/-! ## Bindings of lines and names of blocks -/

theorem Tracks.drop (h : Tracks past blocks) (k : Nat) : Tracks past (blocks.drop k) := by
  intro x n hx hn
  rw [length_drop] at hn
  rcases Nat.le_total k blocks.length with hk | hk
  · rw [← h x n hx (by omega), boundIn, boundIn, drop_drop, length_drop,
      show k + (blocks.length - k - n) = blocks.length - n by omega]
  · obtain rfl : n = 0 := by omega
    simp [← h x 0 hx (Nat.zero_le _), boundIn, drop_eq_nil_of_le hk]

/-- A line that binds names is kept track of. -/
theorem Tracks.binds {own given : List Text} (h : Tracks past s.names) (hb : Binds own given s t) :
    Tracks (⟨s.names.length, own, given⟩ :: past) t.blocks := by
  obtain ⟨inner, outer, hs, ht⟩ := hb.names
  have hbound : ∀ x, IsName x → s.isBound x = boundBy x s.names.length past := by
    intro x hx
    rw [← h x _ hx (Nat.le_refl _), boundIn, Nat.sub_self]
    rfl
  have hlength : t.names.length = s.names.length := by rw [ht, hs]; rfl
  have hnames : ∀ x n, IsName x → n ≤ s.names.length →
      boundIn x n t.names =
      (own.contains x && decide (s.names.length ≤ n) || boundBy x n past) := by
    intro x n hx hn
    rcases Nat.lt_or_eq_of_le hn with hlt | rfl
    · obtain ⟨m, hm⟩ : ∃ m, s.names.length - n = m + 1 := ⟨s.names.length - n - 1, by omega⟩
      rw [← h x n hx hn, decide_eq_false (Nat.not_le.mpr hlt), Bool.and_false, Bool.false_or,
        boundIn, boundIn, hlength, hm, ht, hs]
      rfl
    · have hall : t.names.any (·.contains x) =
        ((own.filter fun x => !s.isBound x).contains x || s.isBound x) := by
        rw [State.isBound, hs, ht]
        simp [Bool.or_assoc]
      rw [boundIn, hlength, Nat.sub_self, drop_zero, hall, ← hbound x hx,
        decide_eq_true (Nat.le_refl _), Bool.and_true]
      cases hbound : s.isBound x <;> simp [mem_filter, hbound]
  intro x n hx hn
  simp only [boundBy, Nat.succ_le_iff]
  unfold State.blocks at hn ⊢
  -- A header announces a block, and its names are those of that block.
  split_ifs at hn ⊢ with hpending
  · rw [length_cons, hlength] at hn
    rcases Nat.lt_or_eq_of_le hn with hlt | rfl
    · have hle : n ≤ s.names.length := by omega
      have hskip : boundIn x n (t.pendingNames :: t.names) = boundIn x n t.names := by
        rw [boundIn, boundIn, length_cons, hlength, Nat.succ_sub hle]
        rfl
      rw [hskip, hnames x n hx hle, Nat.min_eq_left hle, decide_eq_false (Nat.not_lt.mpr hle),
        Bool.and_false, Bool.or_false]
    · have htop : boundIn x (s.names.length + 1) (t.pendingNames :: t.names) =
          (given.contains x || boundIn x s.names.length t.names) := by
        rw [boundIn, boundIn, length_cons, hlength, Nat.sub_self, Nat.sub_self,
          ← hb.pending hpending x hx]
        rfl
      rw [htop, hnames x _ hx (Nat.le_refl _), Nat.min_eq_right (Nat.le_succ _)]
      simp [Bool.or_left_comm, Bool.or_assoc]
  · have hle : n ≤ s.names.length := by omega
    rw [hnames x n hx hle, Nat.min_eq_left hle, decide_eq_false (Nat.not_lt.mpr hle),
      Bool.and_false, Bool.or_false]

theorem boundBy_of_open {later earlier : List Binding} {b : Binding} (hx : x ∈ b.own)
    (hn : b.level ≤ n)
    (hlater : ∀ b' ∈ later, b.level ≤ b'.level) : boundBy x n (later ++ b :: earlier) = true := by
  induction later generalizing n with
  | nil => simp [boundBy, hx, hn]
  | cons b' later ih =>
    rw [forall_mem_cons] at hlater
    rw [cons_append, boundBy, ih (Nat.le_min.mpr ⟨hn, hlater.1⟩) hlater.2, Bool.or_true]

/-! ## The names of headers -/

/-- The name of a parameter is read from it. -/
theorem IsFormal.bareName {piece name : Text} (h : IsFormal piece (some name)) :
    (strip (piece.takeWhile (except ":="))).dropWhile (· = '*') = name ∧ name ≠ [] := by
  cases h with
  | @named stars _ gap rest hstars hname hgap hrest =>
    have hstar : ∀ c ∈ stars, c = '*' := by
      have hall : ∀ stars ∈ ["".toList, "*".toList, "**".toList], ∀ c ∈ stars, c = '*' := by decide
      exact hall stars hstars
    have hfront : ∀ c ∈ stars ++ (name ++ gap), except ":=" c = true := by
      intro c hc
      rcases mem_append.mp hc with hc | hc
      · rw [hstar c hc]
        decide
      rcases mem_append.mp hc with hc | hc
      · simp [except, hname.ne hc (d := ':') rfl, hname.ne hc (d := '=') rfl]
      · have hblank := hgap c hc
        simp only [except, String.toList, Bool.not_eq_true', contains_eq_mem,
          decide_eq_false_iff_not]
        intro hmem
        have hnone : ∀ d ∈ ":=".toList, isBlank d = false := by decide
        rw [hnone c hmem] at hblank
        cases hblank
    have hend : rest.takeWhile (except ":=") = [] := by
      cases rest with
      | nil => rfl
      | cons c rest =>
        rcases hrest c rfl with rfl | rfl <;> rfl
    have hcut : (stars ++ (name ++ (gap ++ rest))).takeWhile (except ":=") = stars ++
        name ++ gap := by
      rw [show stars ++ (name ++ (gap ++ rest)) = (stars ++ (name ++ gap)) ++ rest by simp,
        takeWhile_append_of_pos hfront, hend, append_nil, append_assoc]
    have hstripped : strip (stars ++ name) = stars ++ name := by
      refine strip_eq_self_iff.mpr ⟨fun c hc => ?_, fun c hc => ?_⟩
      · rcases mem_append.mp (mem_of_mem_head? hc) with hc | hc
        · rw [hstar c hc]
          decide
        · exact hname.not_blank c hc
      · rw [getLast?_append_of_ne_nil _ hname.1] at hc
        exact hname.not_blank c (mem_of_mem_getLast? hc)
    refine ⟨?_, hname.1⟩
    rw [hcut, strip_append_blank hgap, hstripped, dropWhile_append_of_pos fun c hc =>
      decide_eq_true (hstar c hc)]
    obtain ⟨c, rest, rfl⟩ := exists_cons_of_ne_nil hname.1
    rw [dropWhile_cons_of_neg]
    simpa using hname.ne mem_cons_self (d := '*') rfl

/-- The names that are read from a signature are its names. -/
theorem Signature.mem_iff {names : List Text} (h : Signature line names) (hx : IsName x) :
    x ∈ Parameter.names line ↔ x ∈ names := by
  obtain ⟨-, formals, hformals, rfl⟩ := h
  rw [Parameter.names]
  generalize splitArguments line = pieces at hformals ⊢
  induction hformals with
  | nil => rfl
  | @cons piece formal pieces formals hpiece _ ih =>
    cases formal with
    | none =>
      rw [filterMap_cons_none (f := id) rfl, ← ih]
      cases hpiece with
      | sign hc =>
        rcases mem_pair.mp hc with rfl | rfl
        · rfl
        · have hslash : x ≠ ['/'] := by
            rintro rfl
            exact hx.not_mem (d := '/') rfl mem_cons_self
          exact mem_cons.trans (or_iff_right hslash)
    | some name =>
      obtain ⟨hname, hne⟩ := hpiece.bareName
      rw [filterMap_cons_some (f := id) (b := name) rfl]
      by_cases hreceiver : Parameter.isReceiver name = true
      · rw [filter_cons_of_neg, ← ih, filterMap_cons_none]
        · simp only [hname, hreceiver, Bool.or_true, if_true]
        · simpa [Parameter.isReceiver, ← or_iff_not_imp_left] using hreceiver
      · rw [filter_cons_of_pos, mem_cons, ← ih, filterMap_cons_some (b := name), mem_cons]
        · simp only [hname, isEmpty_eq_false_iff.mpr hne, Bool.false_or, if_neg hreceiver]
        · simpa [Parameter.isReceiver] using hreceiver

/-- The targets that are read from a loop are its targets. -/
theorem Targets.loopTargets_eq {names : List Text} (h : Targets line names) :
    loopTargets line = names := by
  obtain ⟨inner, hline, hnames, hidentifier⟩ := h
  have hpiece : ∀ piece ∈ splitOn ',' inner, IsIdentifier (strip piece) := fun piece hpiece =>
    hidentifier _ (hnames ▸ mem_map_of_mem hpiece)
  have hchars : ∀ c ∈ inner, (c = '(' || c = ')') = false := by
    intro c hc
    rw [← join_splitOn ',' inner] at hc
    rcases mem_join hc with hc | ⟨piece, hin, hc⟩
    · obtain rfl := mem_singleton.mp hc
      decide
    · obtain ⟨lead, trail, hparts, hlead, htrail⟩ := strip_parts piece
      have hblank : isBlank c = true → (c = '(' || c = ')') = false := by
        intro h
        rw [Bool.eq_false_iff, Ne, Bool.or_eq_true, decide_eq_true_eq, decide_eq_true_eq]
        rintro (rfl | rfl) <;> cases h
      rw [hparts, mem_append, mem_append] at hc
      rcases hc with (hc | hc) | hc
      · exact hblank (hlead c hc)
      · simp [(hpiece piece hin).ne hc (d := '(') rfl, (hpiece piece hin).ne hc (d := ')') rfl]
      · exact hblank (htrail c hc)
  have hne : inner ≠ [] := by
    rintro rfl
    exact (hpiece [] mem_cons_self).1 rfl
  obtain ⟨front, last, rfl⟩ := (eq_nil_or_concat' inner).resolve_left hne
  have hlast := hchars last (by simp)
  have hstart : ∀ rest, (front ++ [last] ++ rest).dropWhile (fun c => c = '(' || c = ')') = front ++
      [last] ++ rest := by
    intro rest
    obtain ⟨c, tail, hc⟩ := exists_cons_of_ne_nil hne
    rw [hc, cons_append, dropWhile_cons_of_neg]
    rw [hchars c (by rw [hc]; exact mem_cons_self)]
    exact Bool.false_ne_true
  have hend : dropEndWhile (fun c => c = '(' || c = ')') (front ++ [last]) = front ++ [last] :=
    dropEndWhile_of_last getLast?_concat hlast
  rcases hline with rfl | rfl
  · have hall := hstart []
    rw [append_nil] at hall
    rw [loopTargets, hall, hend]
    exact hnames
  · have hclose := (dropEndWhile_concat (x := ')') (front ++ [last]) (by decide)).trans hend
    rw [loopTargets, dropWhile_cons_of_pos (by decide), hstart]
    exact (congrArg (fun t => (splitOn ',' t).map strip) hclose).trans hnames

/-- A conversion attaches to the block of a header the names that the header brings. -/
theorem Brings.contains_eq {names : List Text} (h : Brings c l names) (hx : IsName x) :
    (attached c l).contains x = names.contains x := by
  cases h with
  | function hkind hsignature =>
    simp only [attached, hkind, contains_eq_mem, hsignature.mem_iff hx]
  | @range arguments hkind hspelled =>
    have hloop :
        (Loop.countingLoop (l.group 1) (splitArguments arguments) c.loopDeclaration).isSome =
        decide ((splitArguments arguments).length ∈ [1, 2, 3]) := by
      rcases splitArguments arguments with _ | ⟨_, _ | ⟨_, _ | ⟨_, _ | ⟨_, rest⟩⟩⟩⟩ <;> rfl
    simp only [attached, hkind, hspelled, Except.toOption, Option.any_some, hloop,
      decide_eq_true_eq]
  | loop hkind htargets => simp only [attached, hkind, htargets.loopTargets_eq]
  | caught hkind => simp only [attached, hkind]
  | other hkind =>
    simp only [mem_cons, not_mem_nil, or_false, not_or] at hkind
    unfold attached
    split
    · exact absurd ‹_› hkind.1
    · exact absurd ‹_› hkind.2.1
    · exact absurd ‹_› hkind.2.2.1
    · exact absurd ‹_› hkind.2.2.2
    · rfl

/-! ## The visits of lines -/

/-- A visited line leaves the names of the open blocks alone. -/
def Leaves (given : List Text) (s : State) (r : State × Code) : Prop :=
  r.1.names = s.names ∧ (r.1.pendingScope.isSome = true → r.1.pendingNames = given)

theorem leaves_header (hnames : t.names = s.names) (text : Text) (scope : Scope)
    (given : List Text) : Leaves given s (header t text scope given) :=
  ⟨hnames, fun _ => rfl⟩

theorem leaves_stay {given : List Text} (hnames : t.names = s.names)
    (hpending : t.pendingScope = none) (code : Code) : Leaves given s (t, code) :=
  ⟨hnames, fun hsome => by rw [hpending] at hsome; cases hsome⟩

theorem meets_generic_leaves (hpending : s.pendingScope = none) (line : Text) :
    Yields (Leaves [] s) (generic c s line) := by
  unfold generic
  refine (meets_true _).bind fun text _ => .either (.ok ?_) (.ok ?_)
  · exact leaves_header rfl _ _ _
  · exact leaves_stay rfl hpending _

/-- An assignment that declares its variable. -/
def declaration (c : Conversion) (l : Classified) (value : Text) : Text :=
  if c = .toJava then
    javaType (l.group? 2) (l.group 3) ++ " " ++ l.group 1 ++ " = " ++
    Expression.ToJava.collection value
  else "let " ++
  typedVariable (l.group 1) (if c = .toTypeScript then typescriptType? (l.group? 2) value
  else none) value

/-- An assignment to a variable that is declared already. -/
def reassignment (c : Conversion) (left value : Text) : Text :=
  left ++ " = " ++ if c = .toJava then Expression.ToJava.collection value else value

/-- The code of an assignment outside class bodies: a declaration if the name is not bound. -/
def Assigns (c : Conversion) (s : State) (l : Classified) (isBound : Bool) (code : Code) : Prop :=
  ∃ value, s.expression c (l.group 3) = .ok value ∧
    if isBound then ∃ left, s.expression c (l.group 1) = .ok left ∧
      code = .line (s.terminate (reassignment c left value))
    else code = .line (s.terminate (declaration c l value))

theorem declare_eq {inner : List Text} {outer : List (List Text)} (hs : s.names = inner :: outer)
    (name : Text) : s.declare name = .ok (isBare name && !s.isBound name,
      if isBare name && !s.isBound name then { s with names := (name :: inner) :: outer }
        else s) := by
  rw [State.declare, isBare, hs]
  cases name.contains '.' <;> cases name.contains '[' <;> cases s.isBound name <;> rfl

/-- What follows when the value of an assignment is respelled. -/
theorem meets_assigned (hne : s.names ≠ []) (hpending : s.pendingScope = none)
    (hkind : l.kind = .assignment)
    (inClass : Code) {value : Text} (hvalue : s.expression c (l.group 3) = .ok value) :
    Yields (fun r => Binds (assigned s l) (attached c l) s r.1 ∧
        (s.scopes.head? ≠ some .classBody → isBare (l.group 1) = true →
        Assigns c s l (s.isBound (l.group 1)) r.2))
      (s.inClassBody >>= fun isIn => if isIn = true then pure (s, inClass) else
        s.declare (l.group 1) >>= fun d =>
        if d.1 = true then pure (d.2, .line (d.2.terminate (declaration c l value)))
        else d.2.expression c (l.group 1) >>= fun left =>
        pure (d.2, .line (d.2.terminate (reassignment c left value)))) := by
  obtain ⟨inner, outer, hs⟩ := exists_cons_of_ne_nil hne
  have hpend : s.pendingScope.isSome = true → ∀ (names : List Text) x, IsName x →
      names.contains x = (attached c l).contains x := by
    intro hsome
    rw [hpending] at hsome
    cases hsome
  have hsame : ∀ own : List Text, (∀ x ∈ own, s.isBound x = true) →
      Binds own (attached c l) s s := by
    intro own hown
    refine ⟨⟨inner, outer, hs, ?_⟩, fun hsome => hpend hsome _⟩
    rw [filter_eq_nil_iff.mpr (by simpa using hown), hs]
    rfl
  cases hscopes : s.scopes with
  | nil =>
    rw [State.inClassBody, hscopes]
    exact .error trivial
  | cons scope scopes =>
    have hin : s.inClassBody = .ok (decide (scope = .classBody)) := by
      rw [State.inClassBody, hscopes]; rfl
    rw [hin]
    by_cases hclass : scope = .classBody
    · have hnone : assigned s l = [] := by simp [assigned, hscopes, hclass]
      rw [decide_eq_true hclass, hnone]
      exact .ok ⟨hsame [] (forall_mem_nil _), fun hother => absurd (congrArg some hclass) hother⟩
    rw [decide_eq_false hclass, declare_eq hs]
    have howns : assigned s l = if isBare (l.group 1) = true then [l.group 1] else [] := by
      simp [assigned, hscopes, hclass, hkind]
    -- Only a bare name that is not bound yet is new.
    cases hbound : s.isBound (l.group 1) with
    | false =>
      cases hbare : isBare (l.group 1) with
      | false =>
        rw [howns, hbare]
        refine (meets_true (s.expression c (l.group 1))).bind fun left _ =>
          .ok ⟨hsame [] (forall_mem_nil _), ?_⟩
        exact fun _ hother => by cases hother
      | true =>
        rw [howns, hbare]
        refine .ok ⟨⟨⟨inner, outer, hs, ?_⟩, fun hsome => hpend hsome _⟩, fun _ _ =>
          ⟨value, hvalue, rfl⟩⟩
        rw [if_pos rfl, filter_cons_of_pos (by rw [hbound]; rfl)]
        rfl
    | true =>
      rw [Bool.not_true, Bool.and_false]
      refine (meets_true (s.expression c (l.group 1))).remember.bind fun left hleft =>
        .ok ⟨hsame _ ?_, ?_⟩
      · rw [howns]
        split <;> simp [hbound]
      · exact fun _ _ => ⟨value, hvalue, left, hleft.1, rfl⟩

section

variable (hc : c ∈ [Conversion.toJavaScript, .toTypeScript, .toJava])

include hc

theorem meets_rangeForHeader_leaves (hpending : s.pendingScope = none)
    (hkind : l.kind = .rangeForHeader) :
    Yields (Leaves (attached c l) s) (rangeForHeader c s l) := by
  have hknown : s.expression c (l.group 2) = c.expression (fun _ => false) (l.group 2) := by
    cases c <;> first | rfl | simp at hc
  have hphp : ¬ c = .toPhp := by rintro rfl; simp at hc
  unfold rangeForHeader
  rw [if_neg hphp, hknown]
  cases hspelled : c.expression (fun _ => false) (l.group 2) with
  | error => exact .error trivial
  | ok arguments =>
    have hgiven : attached c l =
        if (Loop.countingLoop (l.group 1) (splitArguments arguments) c.loopDeclaration).isSome
        then [l.group 1] else [] := by
      simp only [attached, hkind, hspelled]
      rfl
    rw [hgiven]
    dsimp only [bind, Except.bind]
    cases Loop.countingLoop (l.group 1) (splitArguments arguments) c.loopDeclaration with
    | none => exact meets_generic_leaves hpending _
    | some loop => exact .ok (leaves_header rfl _ _ _)

theorem meets_forHeader_leaves (hkind : l.kind = .forHeader) :
    Yields (Leaves (attached c l) s) (forHeader c s l) := by
  have hscript : c ≠ .toJava → Yields (Leaves (attached c l) s) (javascriptFor c s l) := by
    intro hjava
    have hgiven : attached c l = loopTargets (l.group 1) := by
      simp only [attached, hkind, hjava, false_and, if_false, append_nil]
    rw [hgiven]
    exact (meets_true _).bind fun iterable _ => .ok (leaves_header rfl _ _ _)
  cases c
  case plain | toPhp => simp at hc
  case toJavaScript | toTypeScript => exact hscript (by decide)
  case toJava =>
    simp only [forHeader, javaFor]
    split
    · rename_i m key value hm hlist
      have hgiven : attached .toJava l = [key, value, "entry".toList] := by
        simp [attached, hkind, hm, hlist]
      rw [hgiven]
      exact (meets_true _).bind fun entries _ => .ok ⟨rfl, fun _ => rfl⟩
    · rename_i hother
      have hgiven : attached .toJava l = loopTargets (l.group 1) := by
        simp only [attached, hkind, true_and]
        rw [if_neg, append_nil]
        rintro ⟨hsome, hlength⟩
        obtain ⟨m, hm⟩ := Option.isSome_iff_exists.mp hsome
        obtain ⟨key, value, hlist⟩ := length_eq_two.mp hlength
        exact hother m key value hm hlist
      rw [hgiven]
      exact (meets_true _).bind fun iterable _ => .ok (leaves_header rfl _ _ _)

theorem meets_functionHeader_leaves :
    Yields (Leaves (Parameter.names (l.group 2)) s) (functionHeader c s l) := by
  cases c
  case plain | toPhp => simp at hc
  case toJavaScript =>
    exact (meets_true _).bind fun given _ => (meets_true _).bind fun inClass _ =>
      .ok (leaves_header rfl _ _ _)
  case toTypeScript =>
    exact (meets_true _).bind fun given _ => (meets_true _).bind fun inClass _ =>
      .ok (leaves_header rfl _ _ _)
  case toJava =>
    simp only [functionHeader, javaFunction, takeStatic]
    refine (meets_true _).bind fun inClass _ => .ite (fun _ => .either ?_ ?_) fun _ =>
      .either ?_ ?_
    · exact (meets_true _).bind fun name _ => (meets_true _).bind fun text _ =>
        .ok (leaves_header rfl _ _ _)
    all_goals exact (meets_true _).bind fun text _ => .ok (leaves_header rfl _ _ _)

/-- Lines other than assignments bind at most the names of an announced block. -/
theorem meets_visit_leaves (hpending : s.pendingScope = none) (hassignment : l.kind ≠ .assignment) :
    Yields (Leaves (attached c l) s) (visit c s l) := by
  have hother : ∀ {code : Code}, Leaves (attached c l) s (s, code) := leaves_stay rfl hpending _
  have hplain : c ≠ .plain := by rintro rfl; simp at hc
  cases hkind : l.kind <;> simp only [visit, hkind]
  case assignment => exact absurd hkind hassignment
  case functionHeader =>
    simp only [attached, hkind]
    exact meets_functionHeader_leaves hc
  case rangeForHeader => exact meets_rangeForHeader_leaves hc hpending hkind
  case forHeader => exact meets_forHeader_leaves hc hkind
  case importLine | passLine => exact .ok hother
  case decoratorLine =>
    unfold decoratorLine
    split
    · exact .ok
        (leaves_stay (t := { s with decorators := s.decorators ++ [l.group 1] }) rfl
        hpending .nothing)
    · exact .ok hother
  case raiseLine =>
    unfold raiseLine
    split
    · exact .ok hother
    · exact (meets_true _).bind fun value _ => .ok hother
  case returnLine =>
    unfold returnLine
    split
    · exact .ok hother
    · refine (meets_true _).bind fun value _ => .ok (leaves_stay ?_ ?_ _)
      · split <;> rfl
      · split <;> exact hpending
  case printLine =>
    cases c
    case plain => exact absurd rfl hplain
    case toPhp => simp at hc
    all_goals exact (meets_true _).bind fun arguments _ => .ok hother
  all_goals simp only [attached, hkind]
  case classHeader =>
    rw [classHeader, if_neg hplain]
    refine .ok (leaves_header ?_ _ _ _)
    split <;> rfl
  case mainGuard =>
    unfold mainGuard
    split <;> exact .ok ⟨rfl, fun _ => rfl⟩
  case ifHeader | elifHeader | whileHeader =>
    exact (meets_true _).bind fun condition _ => .ok (leaves_header rfl _ _ _)
  case elseHeader | tryHeader | finallyHeader => exact .ok (leaves_header rfl _ _ _)
  case exceptHeader => exact .ok ⟨rfl, fun _ => rfl⟩
  all_goals exact meets_generic_leaves hpending _

theorem meets_assignment_binds (hne : s.names ≠ []) (hpending : s.pendingScope = none)
    (hkind : l.kind = .assignment) : Yields (fun r => Binds (assigned s l) (attached c l) s r.1 ∧
        (s.scopes.head? ≠ some .classBody → isBare (l.group 1) = true →
        Assigns c s l (s.isBound (l.group 1)) r.2)) (assignment c s l) := by
  have hthen := fun inClass value (hvalue : s.expression c (l.group 3) = .ok value) =>
    meets_assigned hne hpending hkind inClass hvalue
  cases c
  case plain | toPhp => simp at hc
  case toJavaScript | toTypeScript | toJava =>
    exact (meets_true _).remember.bind fun value hvalue => hthen _ value hvalue.1

theorem meets_visit_binds (hne : s.names ≠ []) (hpending : s.pendingScope = none) (l : Classified) :
    Yields (fun r => Binds (assigned s l) (attached c l) s r.1) (visit c s l) := by
  by_cases hkind : l.kind = .assignment
  · simp only [visit, hkind]
    exact (meets_assignment_binds hc hne hpending hkind).imp fun r hr => hr.1
  · obtain ⟨inner, outer, hs⟩ := exists_cons_of_ne_nil hne
    have hnone : assigned s l = [] := by simp [assigned, hkind]
    rw [hnone]
    refine (meets_visit_leaves hc hpending hkind).imp fun r hr =>
      ⟨⟨inner, outer, hs, hr.1.trans hs⟩, fun hsome x _ => ?_⟩
    rw [hr.2 hsome]

end

/-! ## The lines of a source -/

theorem Tracks.settle (h : Tracks past s.blocks)
    (hu : settleBlocks c { s with hasContent := true } n = .ok u) :
    Tracks past u.names ∧ u.pendingScope = none := by
  have hcloses := meets_settleBlocks_closes c { s with hasContent := true } n
  rw [hu] at hcloses
  unfold State.blocks at h
  rcases hcloses.of_ok with ⟨hsome, -, rfl⟩ | ⟨k, _, _, _, _, _, rfl⟩
  · rw [if_pos hsome] at h
    exact ⟨h, rfl⟩
  · refine ⟨?_, rfl⟩
    split at h
    · exact h.drop (k + 1)
    · exact h.drop k

theorem meets_visitLine_passive_blocks (c : Conversion) (h : isPassive s line = true) :
    Yields (fun t => t.blocks = s.blocks) (visitLine c s line) := by
  refine (meets_visitLine_passive c h).imp fun t ht => ?_
  obtain ⟨_, _, _, _, _, rfl⟩ := ht
  rfl

theorem visitLine_of_active (h : isPassive s line = false) :
    visitLine c s line = settleBlocks c { s with hasContent := true } (width line) >>= fun u =>
      if startsComment (strip line) then writeComment c u (strip line)
        else codeLine c u (strip line) := by
  simp only [isPassive, Bool.or_eq_false_iff, decide_eq_false_iff_not] at h
  obtain ⟨⟨⟨hblank, hcomment⟩, hbrackets⟩, hnote⟩ := h
  simp only [visitLine, hblank, hcomment, hnote, if_neg hbrackets, Bool.false_eq_true, if_false]
  rfl

/-- A line is kept track of. -/
theorem Tracks.meets_visitLine (hc : c ∈ [Conversion.toJavaScript, .toTypeScript, .toJava])
    (hs : Inv c s)
    (h : Tracks past s.blocks) {bound : List Binding} (hbound : Records c s line bound) :
    Yields (fun t => Tracks (bound ++ past) t.blocks) (visitLine c s line) := by
  by_cases hpassive : isPassive s line = true
  · rw [Records, if_pos hpassive] at hbound
    refine (meets_visitLine_passive_blocks c hpassive).imp fun t ht => ?_
    rw [ht, hbound]
    exact h
  rw [Records, if_neg hpassive] at hbound
  obtain ⟨u, hu, hbound⟩ := hbound
  have hsettled := hs.meets_settleBlocks_line (width line)
  rw [hu] at hsettled
  have hblocks := hsettled.of_ok.blocks
  obtain ⟨htracks, hpending⟩ := h.settle hu
  obtain ⟨inner, outer, hnames⟩ := exists_cons_of_ne_nil fun hnil : u.names = [] =>
    hblocks.module (length_eq_zero_iff.mp (by rw [← hblocks.names, hnil]; rfl))
  rw [visitLine_of_active (Bool.eq_false_iff.mpr hpassive), hu]
  dsimp only [bind, Except.bind]
  rw [← hblocks.names] at hbound
  refine .ite (fun hstarts => ?_) fun hstarts => ?_
  · rw [if_pos hstarts] at hbound
    subst hbound
    refine (meets_writeComment_passes c u _).imp fun t ht => ?_
    refine htracks.binds ⟨⟨inner, outer, hnames, ht.1.same.names.trans hnames⟩, fun hsome => ?_⟩
    rw [ht.1.same.pendingScope, hpending] at hsome
    cases hsome
  · rw [if_neg hstarts] at hbound
    obtain ⟨names, hbrings, rfl⟩ := hbound
    rw [codeLine_eq]
    have hne : (counted u (strip line)).names ≠ [] := by
      rw [show (counted u (strip line)).names = u.names from rfl, hnames]
      exact cons_ne_nil _ _
    refine .map ((meets_visit_binds hc hne hpending _).imp fun r hr => ?_)
    obtain ⟨output, heq⟩ := written_eq c (splitComment (strip line)).2 (classified (strip line)) r
    rw [heq]
    refine htracks.binds (t := { r.1 with output := output }) ⟨hr.names, fun hsome x hx => ?_⟩
    exact (hr.pending hsome x hx).trans (hbrings.contains_eq hx)

theorem Records.one_le_level (hs : Inv c s) {bound : List Binding} (h : Records c s line bound) :
    ∀ b ∈ bound, 1 ≤ b.level := by
  rw [Records] at h
  split at h
  · rw [h]
    exact forall_mem_nil _
  · obtain ⟨u, hu, h⟩ := h
    have hsettled := hs.meets_settleBlocks_line (width line)
    rw [hu] at hsettled
    have hlevel : 1 ≤ u.widths.length := length_pos_iff.mpr hsettled.of_ok.blocks.module
    split at h
    · rw [h]
      exact forall_mem_singleton.mpr hlevel
    · obtain ⟨names, -, rfl⟩ := h
      exact forall_mem_singleton.mpr hlevel

theorem Run.run_eq (h : Run c lines s past) : (machine c).run lines = .ok s := by
  induction h with
  | nil => rfl
  | line _ hvisit _ ih =>
    rw [LineMachine.run_concat, ih]
    exact hvisit

section

variable (hc : c ∈ [Conversion.toJavaScript, .toTypeScript, .toJava])

include hc

theorem Run.tracks (h : Run c lines s past) :
    Inv c s ∧ Tracks past s.blocks ∧ ∀ b ∈ past, 1 ≤ b.level := by
  induction h with
  | nil =>
    refine ⟨.initial c, fun x n _ hn => ?_, forall_mem_nil _⟩
    have hn : n ≤ 1 := hn
    rcases Nat.le_one_iff_eq_zero_or_eq_one.mp hn with rfl | rfl <;> rfl
  | @line before s t past bound line _ hvisit hbound ih =>
    obtain ⟨hs, htracks, hlevels⟩ := ih
    have hnext : Yields (Inv c) (visitLine c s line) :=
      hs.meets_visitLine (discipline_all c) trivial
    have htracked := htracks.meets_visitLine hc hs hbound
    rw [hvisit] at hnext htracked
    exact ⟨hnext.of_ok, htracked.of_ok, forall_mem_append.mpr ⟨hbound.one_le_level hs, hlevels⟩⟩

/-- What an assignment writes in a state with settled blocks. -/
theorem exists_assigns (hsettled : Settling c 0 u)
    (hpending : u.pendingScope = none) {text : Text} (hline : codeLine c u text = .ok t)
    (hkind : (classified text).kind = .assignment)
    (hbare : isBare ((classified text).group 1) = true)
    (hclass : u.scopes.head? ≠ some .classBody) :
    ∃ code, Assigns c (counted u text) (classified text)
    (u.isBound ((classified text).group 1)) code ∧
      t.output = CodeConverter.emit c.indentSize u.depth (annotated (splitComment text).2 code)
      u.output := by
  have hne : (counted u text).names ≠ [] := fun hnil : u.names = [] =>
    hsettled.blocks.module (length_eq_zero_iff.mp (by rw [← hsettled.blocks.names, hnil]; rfl))
  have houtcome : Yields (Outcome c (fun _ => True) (counted u text) (classified text))
      (visit c (counted u text) (classified text)) :=
    (discipline_all c).meets_visit (hsettled.arrives trivial fun _ _ => trivial)
  have hassigns := meets_assignment_binds hc hne hpending hkind
  rw [codeLine_eq] at hline
  cases hr : visit c (counted u text) (classified text) with
  | error => rw [hr] at hline; cases hline
  | ok r =>
    rw [hr] at hline houtcome
    have hr : assignment c (counted u text) (classified text) = .ok r := by
      simpa only [visit, hkind] using hr
    rw [hr] at hassigns
    refine ⟨r.2, hassigns.of_ok.2 hclass hbare, ?_⟩
    obtain rfl : written c (splitComment text).2 (classified text) r = t := Except.ok.inj hline
    have hmerged : merged (classified text) r = r := by
      rw [merged, hkind]
      rfl
    rw [written, hmerged, State.emit, State.depth, houtcome.of_ok.frame.output,
      houtcome.of_ok.frame.scopes]
    rfl

end

end CodeConverter.Indent
