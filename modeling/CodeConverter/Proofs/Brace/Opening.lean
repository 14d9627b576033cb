import CodeConverter.Proofs.Brace.Depth

/-!
# What opened each scope

Beside the stack of scopes a second one is kept, which a conversion does not know: for every open
scope the piece of the source that opened it and the scopes that were open before. It only watches
how the stack grows and shrinks. The names that a conversion remembers are those in the class
headers among these pieces, in their order.
-/

namespace CodeConverter.Brace

open Text List

/-- An open scope with the piece of the source that opened it and the scopes around it. -/
structure Opening where
  scope : Scope
  piece : Text
  around : List Scope
  deriving DecidableEq

/-- Whether a scope is that of a class. From Java to JavaScript a class may also be a wrapper. -/
def isClass (c : Conversion) (scope : Scope) : Bool :=
  scope = .classBody || c = .javaToJavaScript && scope = .wrapper

/-- The name in the class header that opened a scope. -/
def Opening.className (c : Conversion) (o : Opening) : Text :=
  (classify c.grammar o.piece).group 1

/-- The openings after a piece, by the number of scopes before and after it. -/
def noteOpening (opened : List Opening) (s : State) (piece : Text) (t : State) : List Opening :=
  if opened.length < t.scopes.length then ⟨t.scopes.headD .block, piece, s.scopes⟩ :: opened
  else opened.drop (opened.length - t.scopes.length)

/-- The openings after some pieces. -/
def openingsOfPieces (c : Conversion) : State → List Opening → List Text → List Opening
  | _, opened, [] => opened
  | s, opened, piece :: rest =>
    let piece := prepare c piece
    if piece.isEmpty then openingsOfPieces c s opened rest
    else
      match visitPiece c s piece with
      | .ok next => openingsOfPieces c next (noteOpening opened s piece next) rest
      | .error _ => opened

/-- The openings after some lines. -/
def openingsOfLines (c : Conversion) : State → List Opening → List Text → List Opening
  | _, opened, [] => opened
  | s, opened, line :: rest =>
    match visitLine c s line with
    | .ok next =>
      openingsOfLines c next
        (openingsOfPieces c { s with hasContent := true } opened (piecesOf c s line)) rest
    | .error _ => opened

/-- The scopes that are open after some lines, innermost first. -/
def openings (c : Conversion) (lines : List Text) : List Opening :=
  openingsOfLines c State.initial [] lines

/-- How an opening stands to those below it. -/
structure Opening.Fits (c : Conversion) (o : Opening) (below : List Opening) : Prop where
  around : o.around = below.map Opening.scope
  header : isClass c o.scope = true → (classify c.grammar o.piece).kind = .classHeader
  skipped : Scope.skipped ∈ below.map Opening.scope → o.scope = .skipped
  wrapper : c = .javaToJavaScript → o.scope = .wrapper →
    ∀ scope ∈ below.map Opening.scope, isClass c scope = false
  inside : c = .javaToJavaScript → o.scope = .classBody → Scope.wrapper ∈ below.map Opening.scope

/-- The openings account for the stacks of a state. -/
structure Accounts (c : Conversion) (opened : List Opening) (s : State) : Prop where
  scopes : s.scopes = opened.map Opening.scope
  names : s.classNames = (opened.filter fun o => isClass c o.scope).map (Opening.className c)
  fits : ∀ above o below, opened = above ++ o :: below → o.Fits c below

variable {c : Conversion} {opened : List Opening} {s t : State} {piece : Text}

theorem endsClass_eq_isClass (hc : c.remembersClasses = true) (scope : Scope) :
    c.endsClass scope = isClass c scope := by
  cases c
  case javaToPython | csharpToJavaScript | javascriptToCSharp | javascriptToJava
    | javaToJavaScript =>
    cases scope <;> rfl
  all_goals cases hc

variable {scope : Scope} {l : Classified} {name : Text} {lines : List Text}

namespace Accounts

section

variable (h : Accounts c opened s)

include h

theorem length : opened.length = s.scopes.length := by
  rw [h.scopes, length_map]

theorem agrees (ht : t.Agrees s) : Accounts c opened t :=
  ⟨ht.scopes.trans h.scopes, ht.classNames.trans h.names, h.fits⟩

theorem stay (hscopes : t.scopes = s.scopes) (hnames : t.classNames = s.classNames) :
    Accounts c (noteOpening opened s piece t) t := by
  have hsame : noteOpening opened s piece t = opened := by
    rw [noteOpening, hscopes, ← h.length, if_neg (Nat.lt_irrefl _), Nat.sub_self, drop_zero]
  rw [hsame]
  exact ⟨hscopes.trans h.scopes, hnames.trans h.names, h.fits⟩

/-- A scope that is opened is put on the account. -/
theorem push (hscopes : t.scopes = scope :: s.scopes) (hnames : t.classNames =
      if isClass c scope then (classify c.grammar piece).group 1 :: s.classNames else s.classNames)
    (hfits : Opening.Fits c ⟨scope, piece, s.scopes⟩ opened) :
    Accounts c (noteOpening opened s piece t) t := by
  have hnew : noteOpening opened s piece t = ⟨scope, piece, s.scopes⟩ :: opened := by
    rw [noteOpening, hscopes, length_cons, h.length, if_pos (Nat.lt_succ_self _)]
    rfl
  rw [hnew]
  refine ⟨by rw [hscopes, h.scopes]; rfl, ?_, fun above o below heq => ?_⟩
  · rw [hnames, h.names, filter_cons]
    split <;> rfl
  · cases above with
    | nil =>
      obtain ⟨rfl, rfl⟩ := cons.inj heq
      exact hfits
    | cons first above => exact h.fits above o below (cons.inj heq).2

/-- A scope that is closed is taken from the account. -/
theorem pop {rest : List Scope} (hscopes : s.scopes = scope :: rest)
    (hrest : t.scopes = rest)
    (hnames : t.classNames = if isClass c scope then s.classNames.tail else s.classNames) :
    Accounts c (noteOpening opened s piece t) t := by
  have haccount := h.scopes
  rw [hscopes] at haccount
  cases opened with
  | nil => cases haccount
  | cons o opened =>
    obtain ⟨rfl, rfl⟩ := cons.inj haccount
    have hold : noteOpening (o :: opened) s piece t = opened := by
      rw [noteOpening, hrest, length_map, length_cons, if_neg (by omega), Nat.add_sub_cancel_left]
      rfl
    rw [hold]
    refine ⟨hrest, ?_, fun above p below heq => h.fits (o :: above) p below (by rw [heq]; rfl)⟩
    have hall := h.names
    rw [filter_cons] at hall
    rw [hnames, hall]
    split <;> rfl

theorem wrapper_mem (hc : c = .javaToJavaScript)
    (hmem : scope ∈ s.scopes) (hclass : isClass c scope = true) : Scope.wrapper ∈ s.scopes := by
  subst hc
  cases scope
  case wrapper => exact hmem
  case classBody =>
    rw [h.scopes] at hmem ⊢
    obtain ⟨o, ho, hscope⟩ := mem_map.mp hmem
    obtain ⟨above, below, rfl⟩ := append_of_mem ho
    have hinside := (h.fits above o below rfl).inside rfl hscope
    rw [map_append, map_cons]
    exact mem_append_right _ (mem_cons_of_mem _ hinside)
  all_goals cases hclass

theorem openPlain (hskip : Scope.skipped ∉ s.scopes)
    (hclass : isClass c scope = false) (hscopes : t.scopes = scope :: s.scopes)
    (hnames : t.classNames = s.classNames) : Accounts c (noteOpening opened s piece t) t := by
  refine h.push hscopes (by rw [hnames, hclass]; rfl) ⟨h.scopes, ?_, ?_, ?_, ?_⟩
  · intro htrue
    rw [hclass] at htrue
    cases htrue
  · rw [← h.scopes]
    exact fun hmem => absurd hmem hskip
  · rintro rfl rfl
    cases hclass
  · rintro rfl rfl
    cases hclass

theorem openSkipped (hscopes : t.scopes = .skipped :: s.scopes)
    (hnames : t.classNames = s.classNames) : Accounts c (noteOpening opened s piece t) t :=
  h.push hscopes (by rw [hnames]; simp [isClass]) ⟨h.scopes, by simp [isClass], fun _ => rfl,
    nofun, nofun⟩

theorem close (hc : c.remembersClasses = true) {result : Option Scope}
    (hclose : s.closeBlock c = .ok (result, t)) : Accounts c (noteOpening opened s piece t) t := by
  rcases closeBlock_cases hclose with ⟨-, -, rfl⟩ | ⟨first, rest, hscopes, -, rfl⟩
  · exact h.stay rfl rfl
  · exact h.pop hscopes rfl (by rw [endsClass_eq_isClass hc])

end

end Accounts

/-- A line written with indentation enters no class unless it is a class header. -/
theorem ToIndent.kind_of_enters (h : move c s l = .enters scope name) :
    l.kind = .classHeader ∧ name = l.group 1 ∧ scope = .classBody := by
  refine move_elim (P := fun m => m = .enters scope name → _) ?_ ?_ ?_ ?_ ?_ (fun hkind => ?_) h
  on_goal 6 =>
    split
    · rintro ⟨⟩
      exact ⟨hkind, rfl, rfl⟩
    · rintro ⟨⟩
  all_goals rintro ⟨⟩

/-- A line written with braces enters no class unless it is a class header. -/
theorem ToBrace.kind_of_enters (h : move c s l = .enters scope name) :
    l.kind = .classHeader ∧ classMove c s l = .enters scope name := by
  refine move_elim (P := fun m => m = .enters scope name → _) ?_ ?_ ?_ ?_ ?_ ?_ (fun _ => ?_)
    (fun _ => ?_) (fun hkind hclass => ⟨hkind, hclass⟩) h
  all_goals rintro ⟨⟩

/-- What is known of a line that enters a class: it is a class header, and from Java to JavaScript
its class is a wrapper exactly if there is no class around it. -/
structure Entered (c : Conversion) (s : State) (l : Classified) (scope : Scope) (name : Text) :
    Prop where
  kind : l.kind = .classHeader
  name : name = l.group 1
  isClass : isClass c scope = true
  wrapper : c = .javaToJavaScript → scope = .wrapper → ∀ other ∈ s.scopes,
    Brace.isClass c other = false
  inside : c = .javaToJavaScript → scope = .classBody → ∃ other ∈ s.scopes,
    Brace.isClass c other = true

/-- A line that enters a class. -/
theorem entered_of_lineMove (h : lineMove c s l = .enters scope name) :
    Entered c s l scope name := by
  unfold lineMove at h
  split at h
  · obtain ⟨hkind, hclass⟩ := ToBrace.kind_of_enters h
    unfold ToBrace.classMove at hclass
    split at hclass
    · rename_i hcondition
      obtain ⟨hjava, hnone⟩ := Bool.and_eq_true_iff.mp hcondition
      obtain rfl := of_decide_eq_true hjava
      cases hclass
      refine ⟨hkind, rfl, rfl, fun _ _ other hother => ?_, nofun⟩
      have hall : ∀ x ∈ s.scopes, ¬ x = .classBody ∧ ¬ x = .wrapper := by simpa using hnone
      simp [isClass, hall other hother]
    · rename_i hcondition
      cases hclass
      refine ⟨hkind, rfl, by simp [isClass], nofun, ?_⟩
      rintro rfl -
      have hsome : ∃ x ∈ s.scopes, ¬ x = .classBody → x = .wrapper := by simpa using hcondition
      obtain ⟨other, hother, hclass⟩ := hsome
      exact ⟨other, hother, by simpa [isClass] using Decidable.or_iff_not_imp_left.mpr hclass⟩
  · rename_i hstyle
    obtain ⟨hkind, hname, rfl⟩ := ToIndent.kind_of_enters h
    refine ⟨hkind, hname, by simp [isClass], nofun, ?_⟩
    rintro rfl
    exact absurd rfl hstyle

theorem fits_lineMove (hc : c.remembersClasses = true) (s : State) (l : Classified) :
    (lineMove c s l).Fits c := by
  unfold lineMove
  split
  · exact ToBrace.fits_move hc s l
  · exact ToIndent.fits_move c s l

namespace Accounts

section

variable (h : Accounts c opened s)

include h

/-- A move of the piece is accounted for. -/
theorem leads (hc : c.remembersClasses = true) (hskip : Scope.skipped ∉ s.scopes)
    (hleads : (lineMove c s (classify c.grammar piece)).Leads c s piece t) :
    Accounts c (noteOpening opened s piece t) t := by
  have hfits := fits_lineMove hc s (classify c.grammar piece)
  cases hmove : lineMove c s (classify c.grammar piece) with
  | stay =>
    rw [hmove] at hleads
    exact h.stay hleads.scopes hleads.classNames
  | literal =>
    rw [hmove] at hleads
    exact h.openPlain hskip (by simp [isClass]) hleads.scopes hleads.classNames
  | opens scope =>
    rw [hmove] at hleads hfits
    exact h.openPlain hskip ((endsClass_eq_isClass hc scope).symm.trans hfits) hleads.scopes
      hleads.classNames
  | enters scope name =>
    rw [hmove] at hleads
    have hentered := entered_of_lineMove hmove
    refine h.push hleads.scopes ?_ ⟨h.scopes, fun _ => hentered.kind, ?_, ?_, ?_⟩
    · rw [if_pos hentered.isClass, ← hentered.name]
      exact hleads.classNames
    · rw [← h.scopes]
      exact fun hmem => absurd hmem hskip
    · rw [← h.scopes]
      exact hentered.wrapper
    · intro hjava hscope
      obtain ⟨other, hother, hclass⟩ := hentered.inside hjava hscope
      rw [← h.scopes]
      exact h.wrapper_mem hjava hother hclass
  | brace =>
    rw [hmove] at hleads
    simp only [Move.Leads] at hleads
    split at hleads
    · exact h.stay hleads.scopes hleads.classNames
    · exact h.openPlain hskip (by simp [isClass]) hleads.scopes hleads.classNames
  | closes =>
    rw [hmove] at hleads
    obtain ⟨scope, after, hclose, hsame⟩ := hleads
    have hafter : Accounts c (noteOpening opened s piece after) after := h.close hc hclose
    have hnote : noteOpening opened s piece t = noteOpening opened s piece after := by
      simp only [noteOpening, hsame.scopes]
    rw [hnote]
    exact hafter.agrees hsame.toAgrees

section

variable (hskip : Scope.skipped ∈ s.scopes)

include hskip

theorem skipped_top : ∃ o below, opened = o :: below ∧ o.scope = .skipped := by
  cases opened with
  | nil =>
    rw [h.scopes] at hskip
    cases hskip
  | cons o below =>
    refine ⟨o, below, rfl, ?_⟩
    rw [h.scopes, map_cons, mem_cons] at hskip
    rcases hskip with htop | hbelow
    · exact htop.symm
    · exact (h.fits [] o below rfl).skipped hbelow

theorem skipPiece_cases (ht : skipPiece s piece = .ok t) :
    t.classNames = s.classNames ∧ (t.scopes = s.scopes ∨ t.scopes = .skipped :: s.scopes ∨
      ∃ o below, opened = o :: below ∧ o.scope = .skipped ∧
      t.scopes = below.map Opening.scope) := by
  have hmeets : Yields (fun t => t.classNames = s.classNames ∧ (t.scopes = s.scopes ∨
      t.scopes = .skipped :: s.scopes ∨
        ∃ o below, opened = o :: below ∧ o.scope = .skipped ∧ t.scopes = below.map Opening.scope))
        (skipPiece s piece) := by
    refine meets_skipPiece hskip (fun _ => ⟨rfl, .inl rfl⟩) ⟨rfl, .inr (.inl rfl)⟩
      fun scope rest hscopes => ?_
    obtain ⟨o, below, rfl, ho⟩ := h.skipped_top hskip
    exact ⟨rfl, .inr (.inr ⟨o, below, rfl, ho, (cons.inj (hscopes.symm.trans h.scopes)).2⟩)⟩
  rw [ht] at hmeets
  exact hmeets.of_ok

theorem skip (ht : skipPiece s piece = .ok t) : Accounts c (noteOpening opened s piece t) t := by
  obtain ⟨hnames, hsame | hmore | ⟨o, below, rfl, ho, hless⟩⟩ := h.skipPiece_cases hskip ht
  · exact h.stay hsame hnames
  · exact h.openSkipped hmore hnames
  · refine h.pop h.scopes hless ?_
    rw [hnames, ho]
    simp [isClass]

end

section

variable (hc : c.remembersClasses = true)

include hc

/-- Handling a piece is accounted for. -/
theorem visitPiece
    (ht : Brace.visitPiece c s piece = .ok t) : Accounts c (noteOpening opened s piece t) t := by
  have hlanguages : c.hasLanguages = true := by
    cases c
    case plain | toIndentation | toBraces => cases hc
    all_goals rfl
  have hmeets : Yields (fun t => Accounts c (noteOpening opened s piece t) t)
      (Brace.visitPiece c s piece) := by
    refine meets_visitPiece (fun hskip => ?_) fun hskip awaiting => ?_
    · exact (meets_true _).remember.imp fun t ht => h.skip hskip ht.1
    · have hbefore : Accounts c opened { s with awaitingBrace := awaiting } :=
        ⟨h.scopes, h.names, h.fits⟩
      refine (meets_visit_lineMove hlanguages _ piece).imp fun r hr depth => ?_
      exact (hbefore.leads hc hskip hr).agrees ⟨rfl, rfl, rfl⟩
  rw [ht] at hmeets
  exact hmeets.of_ok

/-- The account is kept over the pieces of a line. -/
theorem visitPieces {pieces : List Text}
    (ht : Brace.visitPieces c s pieces = .ok t) :
    Accounts c (openingsOfPieces c s opened pieces) t := by
  induction pieces generalizing s opened with
  | nil =>
    cases ht
    exact h
  | cons piece pieces ih =>
    simp only [Brace.visitPieces] at ht
    simp only [openingsOfPieces]
    split at ht
    · rename_i hempty
      rw [if_pos hempty]
      exact ih h ht
    · rename_i hempty
      rw [if_neg hempty]
      cases hnext : Brace.visitPiece c s (prepare c piece) with
      | error e =>
        rw [hnext] at ht
        cases ht
      | ok next =>
        rw [hnext] at ht
        exact ih (h.visitPiece hc hnext) ht

theorem visitLine {line : Text}
    (ht : Brace.visitLine c s line = .ok t) :
    Accounts c (openingsOfPieces c { s with hasContent := true } opened (piecesOf c s line)) t := by
  rcases visitLine_cases c s line with ⟨hnone, next, hnext, hagrees⟩ | hpieces
  · rw [hnext] at ht
    cases ht
    rw [hnone]
    exact h.agrees hagrees
  · rw [hpieces] at ht
    have hcontent : Accounts c opened { s with hasContent := true } := h.agrees ⟨rfl, rfl, rfl⟩
    exact hcontent.visitPieces hc ht

/-- The account is kept over the lines. -/
theorem visitLines
    (ht : lines.foldlM (Brace.visitLine c) s = .ok t) :
    Accounts c (openingsOfLines c s opened lines) t := by
  induction lines generalizing s opened with
  | nil =>
    cases ht
    exact h
  | cons line lines ih =>
    rw [foldlM_cons] at ht
    simp only [openingsOfLines]
    cases hnext : Brace.visitLine c s line with
    | error e =>
      rw [hnext] at ht
      cases ht
    | ok next =>
      rw [hnext] at ht
      exact ih (h.visitLine hc hnext) ht

end

/-- At most one wrapper is open. -/
theorem count_wrapper (hc : c = .javaToJavaScript) : s.scopes.count .wrapper ≤ 1 := by
  obtain ⟨hscopes, -, hfits⟩ := h
  rw [hscopes]
  clear hscopes
  induction opened with
  | nil => exact Nat.zero_le 1
  | cons o opened ih =>
    rw [map_cons, count_cons]
    by_cases ho : o.scope = .wrapper
    · have hnone : Scope.wrapper ∉ opened.map Opening.scope := by
        intro hmem
        have hclass := (hfits [] o opened rfl).wrapper hc ho _ hmem
        subst hc
        cases hclass
      rw [count_eq_zero_of_not_mem hnone, Nat.zero_add]
      split <;> decide
    · rw [if_neg (by simpa using ho), Nat.add_zero]
      exact ih fun above p below heq => hfits (o :: above) p below (by rw [heq]; rfl)

end

end Accounts

/-- What the stacks of a state say, given the openings of its scopes. -/
structure Explained (c : Conversion) (opened : List Opening) (s : State) : Prop where
  scopes : s.scopes = opened.map Opening.scope
  /-- The remembered names are those of the open classes, in their order. -/
  names : s.classNames = (opened.filter fun o => isClass c o.scope).map (Opening.className c)
  headers :
    ∀ o ∈ opened, isClass c o.scope = true → (classify c.grammar o.piece).kind = .classHeader
  innermost :
    s.classNames.head? = (opened.find? fun o => isClass c o.scope).map (Opening.className c)
  /-- A scope inside a skipped one is skipped. -/
  skipped : ∀ above below, s.scopes = above ++ .skipped :: below → ∀ scope ∈ above, scope = .skipped
  /-- Leaving the outermost skipped scope restores what was open before it. -/
  leaving : ∀ piece t, visitPiece c s piece = .ok t → Scope.skipped ∈ s.scopes →
  Scope.skipped ∉ t.scopes →
    t.classNames = s.classNames ∧ ∃ o ∈ opened.head?, o.scope = .skipped ∧ t.scopes = o.around
  /-- There is at most one wrapper, and the other classes are inside it. -/
  wrapper : c = .javaToJavaScript → s.scopes.count .wrapper ≤ 1 ∧
    ∀ above below, s.scopes = above ++ .classBody :: below → Scope.wrapper ∈ below

/-- Openings that account for a state explain it. -/
theorem Accounts.explained (h : Accounts c opened s) : Explained c opened s where
  scopes := h.scopes
  names := h.names
  headers := fun o ho hclass => by
    obtain ⟨above, below, heq⟩ := append_of_mem ho
    exact (h.fits above o below heq).header hclass
  innermost := by rw [h.names, head?_map, head?_filter]
  skipped := fun above below heq scope hscope => by
    rw [h.scopes, map_eq_append_iff] at heq
    obtain ⟨inner, outer, rfl, rfl, houter⟩ := heq
    obtain ⟨o, ho, rfl⟩ := mem_map.mp hscope
    obtain ⟨first, last, rfl⟩ := append_of_mem ho
    refine (h.fits first o (last ++ outer) (by simp)).skipped ?_
    rw [map_append, houter]
    exact mem_append_right _ mem_cons_self
  leaving := fun piece t ht hskip hleft => by
    unfold Brace.visitPiece at ht
    rw [if_pos (by simpa using hskip)] at ht
    obtain ⟨hnames, hsame | hmore | ⟨o, below, rfl, ho, hless⟩⟩ := h.skipPiece_cases hskip ht
    · rw [hsame] at hleft
      exact absurd hskip hleft
    · rw [hmore] at hleft
      exact absurd mem_cons_self hleft
    · exact ⟨hnames, o, rfl, ho, hless.trans (h.fits [] o below rfl).around.symm⟩
  wrapper := fun hc => by
    refine ⟨h.count_wrapper hc, fun above below heq => ?_⟩
    rw [h.scopes, map_eq_append_iff] at heq
    obtain ⟨inner, outer, hopened, -, houter⟩ := heq
    obtain ⟨o, rest, rfl, ho, rfl⟩ := map_eq_cons_iff.mp houter
    exact (h.fits inner o rest hopened).inside hc ho

/-- A conversion that remembers classes has their names in the order in which the classes are open,
after some lines and after any pieces of the next one. -/
theorem run_explained (hc : c.remembersClasses = true) (h : (machine c).run lines = .ok s) :
    Explained c (openings c lines) s ∧ ∀ pieces t,
    visitPieces c { s with hasContent := true } pieces = .ok t →
        Explained c (openingsOfPieces c { s with hasContent := true } (openings c lines) pieces)
        t := by
  have hinitial : Accounts c [] State.initial := ⟨rfl, rfl, fun above o below heq => by simp at heq⟩
  have hlines : Accounts c (openings c lines) s := hinitial.visitLines hc h
  refine ⟨hlines.explained, fun pieces t ht => ?_⟩
  have hcontent : Accounts c (openings c lines) { s with hasContent := true } :=
    hlines.agrees ⟨rfl, rfl, rfl⟩
  exact (hcontent.visitPieces hc ht).explained

/-- In a member of a dropped interface, and in a class inside a class inside the outermost one. -/
theorem run_explained_nested : let interface : List Text :=
      ["class A \x7b", "class B \x7b", "interface I \x7b", "void f() \x7b"]
    let classes : List Text := ["class A \x7b", "class B \x7b", "void f() \x7b", "class C \x7b"]
    (∃ s, (machine .csharpToJavaScript).run interface = .ok s ∧
      s.scopes = [.skipped, .skipped, .classBody, .classBody] ∧ s.classNames = [['B'], ['A']] ∧
      Explained .csharpToJavaScript (openings .csharpToJavaScript interface) s) ∧
    ∃ s, (machine .javaToJavaScript).run classes = .ok s ∧
      s.scopes = [.classBody, .function, .classBody, .wrapper] ∧
      s.classNames = [['C'], ['B'], ['A']] ∧
      Explained .javaToJavaScript (openings .javaToJavaScript classes) s := by
  intro interface classes
  have hinterface : ((machine .csharpToJavaScript).run interface).toOption.map (fun s =>
      (s.scopes, s.classNames)) =
      some ([.skipped, .skipped, .classBody, .classBody], [['B'], ['A']]) := by decide +kernel
  have hclasses :
      ((machine .javaToJavaScript).run classes).toOption.map (fun s => (s.scopes, s.classNames)) =
      some ([.classBody, .function, .classBody, .wrapper], [['C'], ['B'], ['A']]) := by
    decide +kernel
  have hstate : ∀ {c lines scopes names},
      ((machine c).run lines).toOption.map (fun s => (s.scopes, s.classNames)) =
      some (scopes, names) →
      ∃ s, (machine c).run lines = .ok s ∧ s.scopes = scopes ∧ s.classNames = names := by
    intro c lines scopes names h
    cases hs : (machine c).run lines with
    | error e =>
      rw [hs] at h
      cases h
    | ok s =>
      rw [hs] at h
      cases h
      exact ⟨s, rfl, rfl, rfl⟩
  obtain ⟨s, hs, hscopes, hnames⟩ := hstate hinterface
  obtain ⟨t, ht, htscopes, htnames⟩ := hstate hclasses
  exact ⟨⟨s, hs, hscopes, hnames, (run_explained rfl hs).1⟩, t, ht, htscopes, htnames,
    (run_explained rfl ht).1⟩

end CodeConverter.Brace
