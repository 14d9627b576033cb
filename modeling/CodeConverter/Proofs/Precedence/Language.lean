import CodeConverter.Proofs.Precedence.Tree
import CodeConverter.Proofs.Program.Name

/-!
# Expression languages

A language of expressions spells its signs as words or as symbols. `Laid` says which tokens a text
spells: words and symbols as long as possible, with layout between them. `Means` says which
expression a text stands for. A text spells at most one list of tokens (`Laid.unique`) and stands
for at most one expression (`Means.unique`).
-/

namespace CodeConverter.Precedence

open Text Program List

variable {σ : Type}

/-- The characters that separate tokens. -/
def isLayout (c : Char) : Bool :=
  c = ' ' || c = '\t' || c = '\n' || c = '\r' || c = '\x0c'

/-- A language of expressions: the ranks of its signs, the signs that are words, the words that are
neither signs nor operands, and the tokens that are written with other characters. -/
structure Language (σ : Type) where
  ranks : Ranks σ
  keyword : Text → Option σ
  barred : List Text
  symbols : List (Text × Token σ)
  symbol_ne_nil : ∀ entry ∈ symbols, entry.1 ≠ []
  symbol_chars : ∀ entry ∈ symbols, ∀ c ∈ entry.1, isWord c = false ∧ isLayout c = false
  symbol_unique : ∀ entry ∈ symbols, ∀ entry' ∈ symbols, entry.1 = entry'.1 → entry = entry'

/-- The token that a word stands for. -/
def Language.tokenOf (l : Language σ) (w : Text) : Option (Token σ) :=
  match l.keyword w with
  | some s => some (.sign s)
  | none => if w ∈ l.barred then none else some (.word w)

/-- Whether no longer symbol stands at the start of the text than the given one. -/
def Language.Longest (l : Language σ) (x t : Text) : Prop :=
  ∀ entry ∈ l.symbols, entry.1 <+: x ++ t → entry.1.length ≤ x.length

instance (l : Language σ) (x t : Text) : Decidable (l.Longest x t) :=
  inferInstanceAs (Decidable (∀ entry ∈ l.symbols, entry.1 <+: x ++ t → entry.1.length ≤ x.length))

/-- The text spells the tokens. -/
inductive Laid (l : Language σ) : Text → List (Token σ) → Prop
  | nil : Laid l [] []
  | layout {c : Char} {t : Text} {tokens : List (Token σ)} : isLayout c = true → Laid l t tokens →
      Laid l (c :: t) tokens
  | word {w t : Text} {token : Token σ} {tokens : List (Token σ)} :
      IsName w → (∀ c ∈ t.head?, isWord c = false) →
      l.tokenOf w = some token → Laid l t tokens → Laid l (w ++ t) (token :: tokens)
  | symbol {x t : Text} {token : Token σ} {tokens : List (Token σ)} : (x, token) ∈ l.symbols →
      l.Longest x t → Laid l t tokens → Laid l (x ++ t) (token :: tokens)

/-- The text stands for the expression. -/
def Means (l : Language σ) (t : Text) (tree : Tree σ) : Prop :=
  Laid l t tree.tokens ∧ Fits l.ranks 0 tree

variable {l : Language σ} {t w x : Text} {token : Token σ} {tokens other : List (Token σ)}
    {c : Char}

theorem isWord_eq_false_of_isLayout (h : isLayout c = true) : isWord c = false := by
  simp only [isLayout, Bool.or_eq_true, decide_eq_true_eq] at h
  rcases h with (((rfl | rfl) | rfl) | rfl) | rfl <;> decide

theorem isBlank_of_isLayout (h : isLayout c = true) : isBlank c = true := by
  simp only [isLayout, Bool.or_eq_true, decide_eq_true_eq] at h
  rcases h with (((rfl | rfl) | rfl) | rfl) | rfl <;> decide

theorem exists_head_of_isName (h : IsName w) : ∃ c rest, w = c :: rest ∧ isWord c = true := by
  obtain ⟨c, rest, rfl⟩ := exists_cons_of_ne_nil h.1
  exact ⟨c, rest, rfl, h.2 c mem_cons_self⟩

theorem Language.exists_head_of_symbol (h : (x, token) ∈ l.symbols) :
    ∃ c rest, x = c :: rest ∧ isWord c = false ∧ isLayout c = false := by
  obtain ⟨c, rest, rfl⟩ := exists_cons_of_ne_nil (l.symbol_ne_nil _ h)
  exact ⟨c, rest, rfl, l.symbol_chars _ h c mem_cons_self⟩

theorem Language.longest_of
    (h : ∀ entry ∈ l.symbols, x <+: entry.1 → entry.1.length ≤ x.length ∨ ∃ d ∈ entry.1[x.length]?,
    d ∉ t.head?) : l.Longest x t := by
  intro entry hentry hstart
  by_contra hlong
  have hprefix : x <+: entry.1 := prefix_of_prefix_length_le (prefix_append x t) hstart (by omega)
  rcases h entry hentry hprefix with hshort | ⟨d, hd, hnot⟩
  · exact hlong hshort
  · obtain ⟨rest, hrest⟩ := hstart
    have hnext : (x ++ t)[x.length]? = some d := by
      rw [← hrest, getElem?_append_left (List.getElem?_eq_some_iff.mp hd).1, hd]
    rw [getElem?_append_right (Nat.le_refl _), Nat.sub_self, ← head?_eq_getElem?] at hnext
    exact hnot hnext

namespace Laid

theorem of_layout (h : Laid l (c :: t) tokens) (hc : isLayout c = true) : Laid l t tokens := by
  generalize htext : c :: t = text at h
  cases h with
  | nil => cases htext
  | layout _ hrest =>
    obtain ⟨-, rfl⟩ := cons.inj htext
    exact hrest
  | word hname =>
    obtain ⟨d, _, rfl, hd⟩ := exists_head_of_isName hname
    obtain ⟨rfl, -⟩ := cons.inj htext
    rw [isWord_eq_false_of_isLayout hc] at hd
    cases hd
  | symbol hmem =>
    obtain ⟨d, _, rfl, -, hd⟩ := l.exists_head_of_symbol hmem
    obtain ⟨rfl, -⟩ := cons.inj htext
    rw [hc] at hd
    cases hd

theorem of_word (h : Laid l (w ++ t) tokens) (hname : IsName w)
    (hend : ∀ c ∈ t.head?, isWord c = false) :
    ∃ token rest, tokens = token :: rest ∧ l.tokenOf w = some token ∧ Laid l t rest := by
  obtain ⟨d, w', hw, hd⟩ := exists_head_of_isName hname
  generalize htext : w ++ t = text at h
  cases h with
  | nil => rw [hw] at htext; cases htext
  | layout hc =>
    rw [hw] at htext
    obtain ⟨rfl, -⟩ := cons.inj htext
    rw [isWord_eq_false_of_isLayout hc] at hd
    cases hd
  | word hname' hend' htoken hrest =>
    obtain ⟨rfl, rfl⟩ := run_eq_of_heads hname.2 hname'.2 hend hend' htext
    exact ⟨_, _, rfl, htoken, hrest⟩
  | symbol hmem =>
    obtain ⟨e, _, rfl, he, -⟩ := l.exists_head_of_symbol hmem
    rw [hw] at htext
    obtain ⟨rfl, -⟩ := cons.inj htext
    rw [hd] at he
    cases he

theorem of_symbol (h : Laid l (x ++ t) tokens) (hmem : (x, token) ∈ l.symbols)
    (hlong : l.Longest x t) : ∃ rest, tokens = token :: rest ∧ Laid l t rest := by
  obtain ⟨d, x', hx, hword, hlayout⟩ := l.exists_head_of_symbol hmem
  generalize htext : x ++ t = text at h
  cases h with
  | nil => rw [hx] at htext; cases htext
  | layout hc =>
    rw [hx] at htext
    obtain ⟨rfl, -⟩ := cons.inj htext
    rw [hc] at hlayout
    cases hlayout
  | word hname =>
    obtain ⟨e, _, rfl, he⟩ := exists_head_of_isName hname
    rw [hx] at htext
    obtain ⟨rfl, -⟩ := cons.inj htext
    rw [he] at hword
    cases hword
  | @symbol y t' token' rest hmem' hlong' hrest =>
    -- Both symbols are the longest one, so they have the same length.
    have hle : y.length ≤ x.length := hlong _ hmem' (htext ▸ prefix_append y t')
    have hge : x.length ≤ y.length := hlong' _ hmem (htext ▸ prefix_append x t)
    obtain ⟨rfl, rfl⟩ := append_inj htext (Nat.le_antisymm hge hle)
    cases l.symbol_unique _ hmem _ hmem' rfl
    exact ⟨_, rfl, hrest⟩

/-- A text is laid out from one list of tokens only. -/
theorem unique (h : Laid l t tokens) (hother : Laid l t other) : tokens = other := by
  induction h generalizing other with
  | nil =>
    generalize htext : ([] : Text) = text at hother
    cases hother with
    | nil => rfl
    | layout => cases htext
    | word hname =>
      obtain ⟨_, _, rfl, -⟩ := exists_head_of_isName hname
      cases htext
    | symbol hmem =>
      obtain ⟨_, _, rfl, -⟩ := l.exists_head_of_symbol hmem
      cases htext
  | layout hc _ ih => exact ih (hother.of_layout hc)
  | word hname hend htoken _ ih =>
    obtain ⟨token, rest, rfl, htoken', hrest⟩ := hother.of_word hname hend
    rw [htoken] at htoken'
    rw [ih hrest, Option.some.inj htoken']
  | symbol hmem hlong _ ih =>
    obtain ⟨rest, rfl, hrest⟩ := hother.of_symbol hmem hlong
    rw [ih hrest]

theorem chars (h : Laid l t tokens) : ∀ c ∈ t, isLayout c = true ∨ isWord c = true ∨
    ∃ entry ∈ l.symbols, c ∈ entry.1 := by
  induction h with
  | nil => exact forall_mem_nil _
  | layout hc _ ih =>
    rintro d (_ | ⟨_, hd⟩)
    · exact .inl hc
    · exact ih d hd
  | word hname _ _ _ ih =>
    intro d hd
    rcases mem_append.mp hd with hd | hd
    · exact .inr (.inl (hname.2 d hd))
    · exact ih d hd
  | symbol hmem _ _ ih =>
    intro d hd
    rcases mem_append.mp hd with hd | hd
    · exact .inr (.inr ⟨_, hmem, hd⟩)
    · exact ih d hd

/-- Texts with layout between them spell their tokens one after another. -/
theorem append {u : Text} (h : Laid l t tokens) (hu : Laid l (c :: u) other)
    (hc : isLayout c = true) : Laid l (t ++ c :: u) (tokens ++ other) := by
  have hend : ∀ {t : Text}, (∀ d ∈ t.head?, isWord d = false) → ∀ d ∈ (t ++ c :: u).head?,
      isWord d = false := by
    intro t ht d hd
    cases t with
    | nil =>
      obtain rfl : c = d := by simpa using hd
      exact isWord_eq_false_of_isLayout hc
    | cons e t => exact ht d (by simpa using hd)
  induction h with
  | nil => exact hu
  | layout hd _ ih => exact .layout hd ih
  | word hname hhead htoken _ ih =>
    rw [append_assoc]
    exact .word hname (hend hhead) htoken ih
  | @symbol x t token tokens hmem hlong _ ih =>
    rw [append_assoc]
    refine .symbol hmem (fun entry hentry hstart => ?_) ih
    -- A longer symbol would contain the layout.
    refine hlong entry hentry ?_
    rw [← append_assoc] at hstart
    by_cases hshort : entry.1.length ≤ (x ++ t).length
    · exact prefix_of_prefix_length_le hstart (prefix_append _ _) hshort
    · obtain ⟨rest, hrest⟩ :=
        prefix_of_prefix_length_le (prefix_append (x ++ t) (c :: u)) hstart (by omega)
      have hcover : rest <+: c :: u := by
        rw [← hrest] at hstart
        exact (prefix_append_right_inj (x ++ t)).mp hstart
      have hne : rest ≠ [] := by
        rintro rfl
        rw [← hrest] at hshort
        simp at hshort
      obtain ⟨d, rest', rfl⟩ := exists_cons_of_ne_nil hne
      obtain ⟨tail, htail⟩ := hcover
      obtain ⟨rfl, -⟩ := cons.inj htail
      have hlayout := (l.symbol_chars _ hentry d (by rw [← hrest]; simp)).2
      rw [hc] at hlayout
      cases hlayout

theorem layouts {gap : Text} (hgap : ∀ c ∈ gap, isLayout c = true) (h : Laid l t tokens) :
    Laid l (gap ++ t) tokens := by
  induction gap with
  | nil => exact h
  | cons c gap ih =>
    exact .layout (hgap c mem_cons_self) (ih fun d hd => hgap d (mem_cons_of_mem _ hd))

end Laid

theorem Means.unique {tree tree' : Tree σ} (h : Means l t tree) (h' : Means l t tree') :
    tree = tree' :=
  h.2.unique h'.2 (h.1.unique h'.1)

end CodeConverter.Precedence
