import CodeConverter.Proofs.Brace.Total
import CodeConverter.Proofs.Erasure.Operator

/-!
# Erasing types never fails

The members of an enum are numbered from the last number given, which is far below the limit for
numbers that are written. The lines that are left can be visited by a conversion from JavaScript.
-/

namespace CodeConverter.Erasure

open Text Literal Pattern
open List hiding splitOn

/-- A line that is left: no null characters, numbers within the limit, and not too many quotes,
braces and colons. -/
structure Erased (limit : Nat) (u : Text) : Prop where
  null : '\x00' ∉ u
  fit : NumeralsFit u
  heavy : u.countP isHeavy ≤ limit

/-- A line of the source within the limits. -/
structure Legible (t : Text) : Prop where
  null : '\x00' ∉ t
  line : '\n' ∉ t
  digits : t.countP isDigit < digitLimit

variable {t u v member value line : Text} {limit m k : Nat} {index : Option Int}
    {fails : Fault → Prop} {s : State}

theorem Legible.drawn (h : Legible t) (hu : Drawn [] t u) : Legible u where
  null := fun hmem => (hu.mem hmem).elim h.null not_mem_nil
  line := fun hmem => (hu.mem hmem).elim h.line not_mem_nil
  digits := Nat.lt_of_le_of_lt (hu isDigit (by simp)) h.digits

theorem Legible.part (h : Legible t) (hu : u <:+: t) : Legible u :=
  h.drawn (.of_isInfix hu)

theorem Legible.erased (h : Legible t) : Erased (t.countP isHeavy) t :=
  ⟨h.null, numeralsFit_of_countP h.digits, Nat.le_refl _⟩

theorem Erased.mono {limit' : Nat} (h : Erased limit u) (hle : limit ≤ limit') : Erased limit' u :=
  ⟨h.null, h.fit, Nat.le_trans h.heavy hle⟩

theorem Erased.append {n : Nat} (hu : Erased m u) (sep : Text) (hv : Erased n v) (hne : sep ≠ [])
    (hsep : sep.all (fun c => !isDigit c && c ≠ '\x00') = true) :
    Erased (m + sep.countP isHeavy + n) (u ++ sep ++ v) := by
  have hfixed : ∀ c ∈ sep, isDigit c = false ∧ c ≠ '\x00' := fun c hc => by
    simpa using all_eq_true.mp hsep c hc
  rw [append_assoc]
  refine ⟨fun hmem => ?_, hu.fit.append hv.fit (fun c hc => (hfixed c hc).1) hne, ?_⟩
  · rw [mem_append, mem_append] at hmem
    rcases hmem with hmem | hmem | hmem
    · exact hu.null hmem
    · exact (hfixed _ hmem).2 rfl
    · exact hv.null hmem
  · rw [countP_append, countP_append]
    have := hu.heavy
    have := hv.heavy
    omega

theorem erased_fixed (h : t.all (fun c => !isDigit c && c ≠ '\x00') = true) :
    Erased (t.countP isHeavy) t := by
  have hfixed : ∀ c ∈ t, isDigit c = false ∧ c ≠ '\x00' := fun c hc => by
    simpa using all_eq_true.mp h c hc
  refine ⟨fun hmem => (hfixed _ hmem).2 rfl, numeralsFit_of_countP ?_, Nat.le_refl _⟩
  rw [countP_eq_zero.mpr fun c hc => by simp [hfixed c hc]]
  decide

theorem erased_nil : Erased 0 [] := erased_fixed (t := []) rfl

theorem Erased.suffix (hu : Erased m u) (sep : Text) (hne : sep ≠ [])
    (hsep : sep.all (fun c => !isDigit c && c ≠ '\x00') = true) :
    Erased (m + sep.countP isHeavy) (u ++ sep) := by
  simpa using hu.append sep erased_nil hne hsep

theorem Erased.part (h : Erased limit u) (hv : v <:+: u) : Erased limit v :=
  ⟨fun hmem => h.null (hv.subset hmem), h.fit.part hv, Nat.le_trans hv.sublist.countP_le h.heavy⟩

theorem erased_codeLine (s : State) (h : Legible t) :
    Erased (t.countP isHeavy) (codeLine s t).2 := by
  have hdrawn : Drawn addedByErasing t (stripAnnotations s (stripWords t)).2 :=
    (drawn_stripWords t).trans (drawn_stripAnnotations s _)
  have hdigits := Nat.lt_of_le_of_lt (hdrawn.countP_le isDigit rfl) h.digits
  simp only [codeLine]
  split
  · exact erased_nil.mono (Nat.zero_le _)
  · refine ⟨fun hmem => ?_, (sparse_stripOperators _).numeralsFit hdigits, ?_⟩
    · rcases mem_stripOperators hmem with hmem | hmem
      · exact (hdrawn.mem hmem).elim h.null (by decide)
      · exact absurd hmem (by decide)
    · exact Nat.le_trans (countP_stripOperators _) (hdrawn.countP_le isHeavy rfl)

/-- The next number leaves room for `k` more members. -/
def Room (k : Nat) (index : Option Int) : Prop :=
  ∀ n ∈ index, n.natAbs + k < capacity

theorem Room.mono {k' : Nat} (h : Room k index) (hle : k' ≤ k) : Room k' index :=
  fun n hn => Nat.lt_of_le_of_lt (Nat.add_le_add_left hle _) (h n hn)

theorem Legible.meets_readInt (h : Legible t)
    (hliteral : Loop.integerLiteral.matchesStart t = true) (hk : 10 * k ≤ 8 * capacity) :
    Meets fails (fun n => (n + 1).natAbs + k < capacity) (readInt t) := by
  have hread : Meets fails (fun n => 10 * n.natAbs + 10 ≤ capacity) (readInt t) := by
    refine meets_readInt_of_digits (p := fun n => 10 * n + 10 ≤ capacity) hliteral h.line
      fun digits hwithin hall => ?_
    have hlength : digits.length < digitLimit := by
      refine Nat.lt_of_le_of_lt ?_ h.digits
      rw [← countP_eq_length.mpr hall]
      exact hwithin.sublist.countP_le
    exact ⟨Nat.le_of_lt hlength, ten_mul_natOfDigits_le hlength⟩
  refine hread.imp fun n hn => ?_
  have hsum := Int.natAbs_add_le n 1
  omega

/-- The value of a member: a part of the member, or what is written for the next one. -/
def IsValue (index : Option Int) (member value : Text) : Prop :=
  value <:+: member ∨ value = "None" ∨ ∃ n ∈ index, value = signedDecimal n

theorem IsValue.erased (h : IsValue index member value)
    (hmember : Legible member) (hindex : Room 1 index) : Erased (member.countP isHeavy) value := by
  rcases h with hwithin | rfl | ⟨n, hn, rfl⟩
  · exact ((hmember.part hwithin).erased).mono hwithin.sublist.countP_le
  · exact (erased_fixed rfl).mono (Nat.zero_le _)
  · refine ⟨fun hmem => ?_, numeralsFit_signedDecimal (hindex n hn), ?_⟩
    · exact (mem_signedDecimal hmem).elim (by decide) (by decide)
    · rw [countP_eq_zero.mpr fun c hc => ?_]
      · exact Nat.zero_le _
      · rw [Bool.not_eq_true]
        rcases mem_signedDecimal hc with hdigit | rfl
        · exact isHeavy_eq_false rfl hdigit
        · rfl

theorem IsValue.meets_readInt (h : IsValue index member value) (hmember : Legible member)
    (hk : 10 * k ≤ 8 * capacity)
    (hindex : Room (k + 1) index) (hliteral : Loop.integerLiteral.matchesStart value = true) :
    Meets fails (fun n => (n + 1).natAbs + k < capacity) (readInt value) := by
  rcases h with hwithin | rfl | ⟨n, hn, rfl⟩
  · exact (hmember.part hwithin).meets_readInt hliteral hk
  · exact absurd hliteral (by decide)
  · have hroom := hindex n hn
    rw [readInt_signedDecimal (by omega)]
    have hsum := Int.natAbs_add_le n 1
    exact .ok (by omega)

theorem meets_nextValue (member : Text) (hindex : Room 0 index) :
    Meets fails (IsValue index member) (nextValue index) := by
  cases index with
  | none => exact .ok (.inr (.inl rfl))
  | some n =>
      exact (meets_writeInt (hindex n rfl)).imp fun value hvalue => .inr (.inr ⟨n, rfl, hvalue⟩)

/-- A member of an enum becomes an entry. -/
theorem meets_enumEntry (hmember : Legible member) (hk : 10 * k ≤ 8 * capacity)
    (hindex : Room (k + 1) index) :
    Meets fails (fun r => Room k r.1 ∧ Erased (2 * member.countP isHeavy + 1) r.2)
    (enumEntry index member) := by
  have hstrip := hmember.part (strip_isInfix member)
  have hheavy := (strip_isInfix member).sublist.countP_le (p := isHeavy)
  have hless : Room k index := hindex.mono (by omega)
  simp only [enumEntry]
  split
  · exact .ok ⟨hless, hstrip.erased.mono (by omega)⟩
  · rename_i m hm
    have hname : m.group 1 <:+: strip member :=
      ((of_matchStart hm).1.group_isInfix 1).trans (of_matchStart hm).1.whole_isInfix
    have hrest : ∀ value, IsValue index (strip member) value →
        Meets fails (fun r => Room k r.1 ∧ Erased (2 * member.countP isHeavy + 1) r.2) (do
          let next ← if Loop.integerLiteral.matchesStart value then do
              pure (some ((← readInt value) + 1))
            else pure index
          return (next, m.group 1 ++ ": " ++ value)) := by
      intro value hvalue
      have hentry : Erased (2 * member.countP isHeavy + 1) (m.group 1 ++ ": " ++ value) := by
        have hcolon : (": ".toList).countP isHeavy = 1 := by decide
        have hcount := hname.sublist.countP_le (p := isHeavy)
        have hleft := (hstrip.part hname).erased
        exact (hleft.append _ (hvalue.erased hstrip (hindex.mono (by omega))) (by decide)
          (by decide)).mono (by omega)
      refine .ite (fun hliteral => ?_) fun _ => .ok ⟨hless, hentry⟩
      refine (hvalue.meets_readInt hstrip hk hindex hliteral).bind fun n hn =>
        .ok ⟨fun x hx => ?_, hentry⟩
      obtain rfl : n + 1 = x := Option.some.inj hx
      exact hn
    cases hgroup : m.group? 2 with
    | some value =>
      have hwithin :=
        ((of_matchStart hm).1.group_isInfix 2).trans (of_matchStart hm).1.whole_isInfix
      rw [Match.group, hgroup] at hwithin
      exact hrest value (.inl hwithin)
    | none => exact (meets_nextValue _ (hindex.mono (by omega))).bind hrest

/-- The members of an enum become entries. -/
theorem meets_enumEntries {members : List Text}
    (hmembers : ∀ member ∈ members, Legible member) (hk : 10 * (k + members.length) ≤ 8 * capacity)
    (hindex : Room (k + members.length) index) :
    Meets fails (fun r => Room k r.1 ∧ (∀ entry ∈ r.2, '\x00' ∉ entry ∧ NumeralsFit entry) ∧
        r.2.flatten.countP isHeavy ≤ 2 * members.flatten.countP isHeavy + members.length)
      (enumEntries index members) := by
  induction members generalizing index with
  | nil => exact .ok ⟨hindex, fun _ h => absurd h not_mem_nil, Nat.le_refl _⟩
  | cons member members ih =>
    rw [length_cons] at hk hindex
    simp only [enumEntries]
    refine (meets_enumEntry (k := k + members.length) (hmembers member mem_cons_self) (by omega)
      hindex).bind
      fun first hfirst => ?_
    refine (ih (fun x hx => hmembers x (mem_cons_of_mem _ hx)) (by omega) hfirst.1).bind
      fun rest hrest => ?_
    refine .ok ⟨hrest.1, fun entry hentry => ?_, ?_⟩
    · rcases mem_cons.mp hentry with rfl | hentry
      · exact ⟨hfirst.2.null, hfirst.2.fit⟩
      · exact hrest.2.1 entry hentry
    · have hsum := hrest.2.2
      have hheavy := hfirst.2.heavy
      simp only [flatten_cons, countP_append, length_cons]
      omega

theorem erased_join {entries : List Text}
    (h : ∀ entry ∈ entries, '\x00' ∉ entry ∧ NumeralsFit entry) :
    Erased (entries.flatten.countP isHeavy) (join ", " entries) := by
  induction entries with
  | nil => exact erased_nil
  | cons entry entries ih =>
    have hentry := h entry mem_cons_self
    have hfirst : Erased (entry.countP isHeavy) entry := ⟨hentry.1, hentry.2, Nat.le_refl _⟩
    cases entries with
    | nil => simpa using hfirst
    | cons next entries =>
      have hrest := ih fun x hx => h x (mem_cons_of_mem _ hx)
      have hcomma : (", ".toList).countP isHeavy = 0 := by decide
      rw [join_cons_cons, ← append_assoc]
      refine (hfirst.append _ hrest (by decide) (by decide)).mono ?_
      simp only [flatten_cons, countP_append]
      omega

theorem meets_enumLine (ht : Legible t) (hk : 10 * k ≤ 8 * capacity)
    (hindex : Room (k + 1) s.enumIndex) :
    Meets fails (fun r => r.1.output = s.output ∧ Room k r.1.enumIndex ∧
    Erased (2 * t.length + 1) r.2) (enumLine s t) := by
  have hlength : t.countP isHeavy ≤ t.length := countP_le_length
  simp only [enumLine]
  refine .either (.ok ⟨rfl, fun n hn => (Option.not_mem_none n hn).elim, ?_⟩) ?_
  · exact (erased_fixed (t := "\x7d;") rfl).mono (Nat.zero_le _)
  · refine (meets_enumEntry ht hk hindex).bind fun r hr => .ok ⟨rfl, hr.1, ?_⟩
    have hcomma : (",".toList).countP isHeavy = 0 := by decide
    split
    · exact (hr.2.suffix _ (by decide) (by decide)).mono (by omega)
    · exact hr.2.mono (by omega)

/-- The header of an enum. -/
theorem meets_enumHeader (ht : Legible t) (hk : 10 * (k + (t.length + 1)) ≤ 8 * capacity) :
    Meets fails (fun r => r.1.output = s.output ∧ Room k r.1.enumIndex ∧
    Erased (5 * t.length + 2) r.2) (enumHeader s (classify Grammar.TypeScript.all t)) := by
  have hgroup := classify_group_isInfix Grammar.TypeScript.all t
  generalize classify Grammar.TypeScript.all t = l at hgroup ⊢
  have hmembers : (splitTopLevel (l.group 3)).length ≤ t.length + 1 :=
    Nat.le_trans (length_splitTopLevelFrom_le _ _ _ _) (Nat.succ_le_succ (hgroup 3).length_le)
  have hsum : (splitTopLevel (l.group 3)).flatten.countP isHeavy ≤ t.length := by
    refine Nat.le_trans (countP_splitTopLevelFrom_le isHeavy 0 none [] (l.group 3)) ?_
    rw [countP_nil, Nat.zero_add]
    exact Nat.le_trans countP_le_length (hgroup 3).length_le
  have hcapacity := ten_le_capacity
  have hstart : Erased (2 * t.length + 1) (l.group 1 ++ "const " ++ l.group 2 ++ " = \x7b") := by
    have hbrace : (" = \x7b".toList).countP isHeavy = 1 := by decide
    have hconst : ("const ".toList).countP isHeavy = 0 := by decide
    have hone := Nat.le_trans (countP_le_length (p := isHeavy)) (hgroup 1).length_le
    have htwo := Nat.le_trans (countP_le_length (p := isHeavy)) (hgroup 2).length_le
    have hnames :=
      (ht.part (hgroup 1)).erased.append "const " (ht.part (hgroup 2)).erased (by decide)
        (by decide)
    exact (hnames.suffix " = \x7b" (by decide) (by decide)).mono (by omega)
  simp only [enumHeader]
  refine (meets_enumEntries (k := k) (fun member hmember => ht.drawn ?_) (by omega) ?_).bind
    fun r hr => ?_
  · exact (Drawn.of_isInfix (hgroup 3)).trans (drawn_of_mem_splitTopLevel hmember)
  · intro n hn
    obtain rfl : (0 : Int) = n := Option.some.inj hn
    simp only [Int.natAbs_zero]
    omega
  · have hentries : Erased (3 * t.length + 1) (join ", " r.2) :=
      (erased_join hr.2.1).mono (by omega)
    have hblank : (" ".toList).countP isHeavy = 0 := by decide
    have hclose : ("\x7d;".toList).countP isHeavy = 0 ∧
        (" \x7d;".toList).countP isHeavy = 0 := by decide
    have hopen := hstart.append " " hentries (by decide) (by decide)
    refine .either (.ok ⟨rfl, hr.1, ?_⟩) (.ok ⟨rfl, ?_, ?_⟩)
    · exact (hopen.part (stripEnd_isPrefix _).isInfix).mono (by omega)
    · exact fun n hn => (Option.not_mem_none n hn).elim
    · split
      · exact (hstart.suffix "\x7d;" (by decide) (by decide)).mono (by omega)
      · exact (hopen.suffix " \x7d;" (by decide) (by decide)).mono (by omega)

theorem Erased.indent {blanks : Text} (h : Erased limit u)
    (hblanks : ∀ c ∈ blanks, isBlank c = true) : Erased limit (blanks ++ u) := by
  refine ⟨fun hmem => ?_, ?_, ?_⟩
  · rcases mem_append.mp hmem with hmem | hmem
    · exact absurd (hblanks _ hmem) (by decide)
    · exact h.null hmem
  · by_cases hnil : blanks = []
    · rw [hnil]
      exact h.fit
    · exact erased_nil.fit.append h.fit (fun c hc =>
        isDigit_eq_false_of_isBlank (hblanks c hc)) hnil
  · rw [countP_append, countP_eq_zero.mpr fun c hc => ?_, Nat.zero_add]
    · exact h.heavy
    · rw [isHeavy_eq_false rfl (hblanks c hc)]
      exact Bool.false_ne_true

/-- What holds while a source is erased: there is room for `k` more members of an enum, and every
line that is left can be visited. -/
structure Going (limit k : Nat) (s : State) : Prop where
  room : Room k s.enumIndex
  output : ∀ u ∈ s.output, Erased limit u

theorem Going.push {t : State} (h : Going limit k s) (hu : Erased limit u)
    (houtput : t.output = s.output.push u) (hindex : t.enumIndex = s.enumIndex) :
    Going limit k t := by
  refine ⟨by rw [hindex]; exact h.room, fun v hv => ?_⟩
  rw [houtput, Array.mem_push] at hv
  rcases hv with hv | rfl
  · exact h.output v hv
  · exact hu

theorem Going.write {code : Text} (h : Going limit k s) (hcode : Erased limit code) :
    Going limit k (s.write (line.takeWhile isBlank) code) := by
  simp only [State.write]
  split
  · exact h
  · refine h.push (hcode.indent fun c hc => ?_) rfl rfl
    exact all_eq_true.mp (all_takeWhile (l := line)) c hc

theorem codeLine_fst (s : State) (t : Text) :
    ∃ inParameters, (codeLine s t).1 = { s with inParameters } := by
  have hannotations : ∀ u, ∃ inParameters, (stripAnnotations s u).1 = { s with inParameters } := by
    intro u
    simp only [stripAnnotations]
    split
    · split <;> exact ⟨_, rfl⟩
    · split <;> exact ⟨_, rfl⟩
  simp only [codeLine]
  split <;> exact hannotations _

/-- Every line is erased, and what is left of it can be visited. -/
theorem Going.meets_visitLine (h : Going limit (k + (line.length + 1)) s) (hline : Legible line)
    (hk : 10 * (k + (line.length + 1)) ≤ 8 * capacity) (hlimit : 5 * line.length + 2 ≤ limit) :
    Meets fails (Going limit k) (visitLine s line) := by
  have hlength := (strip_isInfix line).length_le
  have hstrip := hline.part (strip_isInfix line)
  have hwhole : Erased limit (stripEnd line) := by
    have hcount := countP_le_length (p := isHeavy) (l := line)
    exact (hline.erased.part (stripEnd_isPrefix line).isInfix).mono (by omega)
  have hfewer : Going limit k s := ⟨h.room.mono (by omega), h.output⟩
  simp only [visitLine]
  refine .either (.ok ?_) (.either (.ok ?_) ?_)
  · exact hfewer.push (erased_nil.mono (Nat.zero_le _)) rfl rfl
  · exact ⟨hfewer.room, hfewer.output⟩
  refine .either (.ok ?_) (.either (.ok ?_) ?_)
  · exact hfewer.push hwhole rfl rfl
  · exact hfewer.push hwhole rfl rfl
  refine .either ?_ ?_
  · have hroom : Room (k + 1) s.enumIndex := h.room.mono (by omega)
    refine (meets_enumLine (s := { s with hasContent := true }) hstrip (by omega) hroom).bind
      fun r hr => .ok ?_
    refine .write ⟨hr.2.1, ?_⟩ (hr.2.2.mono (by omega))
    rw [hr.1]
    exact hfewer.output
  · split
    · refine .ok ?_
      simp only [typeOnlyLine]
      split <;> exact ⟨hfewer.room, hfewer.output⟩
    · refine (meets_enumHeader (k := k) hstrip (by omega)).bind fun r hr => .ok ?_
      refine .write ⟨hr.2.1, ?_⟩ (hr.2.2.mono (by omega))
      rw [hr.1]
      exact hfewer.output
    · have hcount := countP_le_length (p := isHeavy) (l := strip line)
      refine .ok (.write ?_ ((erased_codeLine _ hstrip).mono (by omega)))
      obtain ⟨inParameters, hfst⟩ := codeLine_fst { s with hasContent := true } (strip line)
      exact ⟨by rw [hfst]; exact hfewer.room, by rw [hfst]; exact hfewer.output⟩

/-- The characters of some lines, one line feed counted for each. -/
def span (sources : List Text) : Nat :=
  sources.flatten.length + sources.length

theorem span_lines (source : Text) : span (lines source) = source.length + 1 := by
  simp only [lines]
  induction source with
  | nil => rfl
  | cons c source ih =>
    obtain ⟨piece, pieces, heq, -, -⟩ := splitOn_eq_cons '\n' source
    rw [heq] at ih
    simp only [splitOn, heq, span] at ih ⊢
    split <;>
      simp only [flatten_cons, length_append, length_cons, length_nil] at ih ⊢ <;> omega

/-- The run over the lines succeeds while numbers have room. -/
theorem Going.meets_foldlM {sources : List Text}
    (h : Going limit (span sources) s) (hlines : ∀ line ∈ sources, Legible line)
    (hroom : 10 * span sources ≤ 8 * capacity)
    (hlimit : ∀ line ∈ sources, 5 * line.length + 2 ≤ limit) :
    Meets fails (Going limit 0) (sources.foldlM visitLine s) := by
  induction sources generalizing s with
  | nil => exact .ok h
  | cons line sources ih =>
    have hspan : span (line :: sources) = span sources + (line.length + 1) := by
      simp only [span, flatten_cons, length_append, length_cons]
      omega
    rw [hspan] at h hroom
    rw [foldlM_cons]
    refine (h.meets_visitLine (hlines line mem_cons_self) hroom (hlimit line mem_cons_self)).bind
      fun t ht => ?_
    refine ih ht (fun x hx => hlines x (mem_cons_of_mem _ hx)) (by omega) fun x hx => ?_
    exact hlimit x (mem_cons_of_mem _ hx)

/-- A legible source is erased, and what is left of it can be visited. -/
theorem meets_convert {source : Text} (hnull : '\x00' ∉ source)
    (hdigits : source.countP isDigit < digitLimit)
    (hlength : source.length < numerals (digitLimit - 1)) :
    Meets fails (fun out => ∀ line ∈ lines out, '\n' ∉ line ∧ Erased (5 * source.length + 2) line)
      (machine.convert source) := by
  have hspan := span_lines source
  have hcapacity := capacity_eq
  have hpart : ∀ line ∈ lines source, line <:+: source :=
    fun line hline => infix_of_mem_splitOn hline
  have hinitial : Going (5 * source.length + 2) (span (lines source)) State.initial :=
    ⟨fun n hn => (Option.not_mem_none n hn).elim, fun u hu => absurd hu (Array.not_mem_empty u)⟩
  have hrun : Meets fails (Going (5 * source.length + 2) 0) (machine.run (lines source)) := by
    refine hinitial.meets_foldlM (fun line hline => ?_) (by omega) fun line hline => ?_
    · have hwithin := hpart line hline
      exact ⟨fun hmem => hnull (hwithin.subset hmem), not_mem_of_mem_splitOn hline,
        Nat.lt_of_le_of_lt hwithin.sublist.countP_le hdigits⟩
    · have := (hpart line hline).length_le
      omega
  refine LineMachine.meets_convert hrun fun s hs => .ok fun line hline => ?_
  have hfeed : '\n' ∉ line := not_mem_of_mem_splitOn hline
  refine ⟨hfeed, ?_⟩
  rcases infix_of_infix_join (infix_of_mem_splitOn hline) (by decide)
    (by simpa using hfeed) with rfl | ⟨u, hu, hwithin⟩
  · exact erased_nil.mono (Nat.zero_le _)
  · exact (hs.output u (Array.mem_toList_iff.mp hu)).part hwithin

theorem weight_le (t : Text) :
    t.countP isQuote + 2 * t.count '{' + 2 * t.count ':' ≤ 2 * t.countP isHeavy := by
  induction t with
  | nil => exact Nat.le_refl 0
  | cons c t ih =>
    have hone : (if isQuote c then 1 else 0) + 2 * (if c == '{' then 1 else 0) + 2 *
        (if c == ':' then 1 else 0) ≤ 2 * (if isHeavy c then 1 else 0) := by
      by_cases hbrace : c = '{'
      · subst hbrace
        decide
      by_cases hcolon : c = ':'
      · subst hcolon
        decide
      · simp only [isHeavy, hbrace, hcolon, beq_eq_false_iff_ne.mpr hbrace,
          beq_eq_false_iff_ne.mpr hcolon, decide_false, Bool.or_false, Bool.false_eq_true, if_false]
        omega
    simp only [countP_cons, count_cons]
    omega

/-- A line that was erased can be converted further. -/
theorem Erased.tractable (h : Erased limit line) (hline : '\n' ∉ line)
    (hlimit : 2 * limit ≤ capacity) : Brace.Tractable .javascriptToPython line := by
  intro piece hpiece
  have hprepare : Brace.prepare .javascriptToPython piece = piece := if_neg (by decide)
  have hcode : Brace.codeOf .javascriptToPython line = strip line := if_neg (by decide)
  rw [hprepare]
  rw [hcode] at hpiece
  have hstrip := h.part (strip_isInfix line)
  have hof := Block.pieceOf_of_mem_split hpiece
  have hdrawn : Drawn [' '] line piece := (Drawn.of_isInfix (strip_isInfix line)).trans hof.drawn
  refine ⟨fun hmem => ?_, fun hmem => ?_, ?_, ?_⟩
  · exact (hdrawn.mem hmem).elim h.null (by decide)
  · exact (hdrawn.mem hmem).elim hline (by decide)
  · rcases hof with hwithin | ⟨x, gap, hwithin, rfl⟩
    · exact hstrip.fit.part hwithin
    · have hx : x <:+: strip line :=
        (infix_append' [] x (gap ++ ['{'])).trans (by simpa using hwithin)
      exact ((hstrip.part hx).suffix [' ', '{'] (by decide) (by decide)).fit
  · have hweight := weight_le piece
    have hheavy := hdrawn.countP_le isHeavy rfl
    have := h.heavy
    omega

end CodeConverter.Erasure
