import CodeConverter.Literal.Mask
import CodeConverter.Proofs.Pattern.Replace
import CodeConverter.Proofs.Text.Numeral

/-!
# Masked texts

A masked text is the rendering of a list of items, each a character of code or the token of a
literal. `Respelling f` says that `f` sends masked texts to masked texts with the same tokens in
the same order. Replacing the matches of a pattern is a respelling when every match begins and ends
between items, which is so when it has a character that no token has before and behind every token
it reaches over.
-/

namespace CodeConverter.Literal

open Pattern List

/-- A part of a masked text: a character of code, or the token of a literal. -/
inductive Item where
  | code (c : Char)
  | mark (n : Nat)

/-- The characters of an item. -/
def Item.text : Item → Text
  | .code c => [c]
  | .mark n => maskToken n

/-- The number of a token. -/
def Item.number? : Item → Option Nat
  | .code _ => none
  | .mark n => some n

/-- The text of the items. -/
def render (items : List Item) : Text :=
  items.flatMap Item.text

/-- The numbers of the tokens among the items. -/
def marks (items : List Item) : List Nat :=
  items.filterMap Item.number?

/-- The characters of a text as items. -/
def codes (t : Text) : List Item :=
  t.map .code

/-- A character that no token has. -/
def isSolid (c : Char) : Bool :=
  c ≠ '\x00' && !c.isDigit

/-- A character that can stand in the code of a masked text. -/
def isClean (c : Char) : Bool :=
  c ≠ '\x00' && !isQuote c

/-- The characters of code among the items are neither null characters nor quotes. -/
def Clean (items : List Item) : Prop :=
  ∀ c, .code c ∈ items → isClean c = true

@[simp] theorem render_nil : render [] = [] := rfl

@[simp] theorem render_code_cons (c : Char) (items : List Item) :
    render (.code c :: items) = c :: render items := rfl

@[simp] theorem render_mark_cons (n : Nat) (items : List Item) :
    render (.mark n :: items) = maskToken n ++ render items := rfl

@[simp] theorem render_append (a b : List Item) : render (a ++ b) = render a ++ render b :=
  flatMap_append

@[simp] theorem render_codes (t : Text) : render (codes t) = t := by
  induction t with
  | nil => rfl
  | cons c t ih => exact congrArg (c :: ·) ih

@[simp] theorem marks_append (a b : List Item) : marks (a ++ b) = marks a ++ marks b :=
  filterMap_append

@[simp] theorem marks_code_cons (c : Char) (items : List Item) :
    marks (.code c :: items) = marks items := rfl

@[simp] theorem marks_mark_cons (n : Nat) (items : List Item) :
    marks (.mark n :: items) = n :: marks items := rfl

@[simp] theorem marks_codes (t : Text) : marks (codes t) = [] := by
  induction t with
  | nil => rfl
  | cons c t ih => exact ih

variable {a b items : List Item} {t piece rest : Text} {c : Char}

theorem Clean.append (ha : Clean a) (hb : Clean b) : Clean (a ++ b) := fun c hc =>
  (mem_append.mp hc).elim (ha c) (hb c)

theorem Clean.left (h : Clean (a ++ b)) : Clean a :=
  fun c hc => h c (mem_append_left _ hc)

theorem Clean.right (h : Clean (a ++ b)) : Clean b :=
  fun c hc => h c (mem_append_right _ hc)

theorem Clean.tail {i : Item} (h : Clean (i :: items)) : Clean items :=
  fun c hc => h c (mem_cons_of_mem _ hc)

theorem Clean.isQuote (h : Clean (.code c :: items)) : isQuote c = false := by
  have hc := h c mem_cons_self
  simp only [isClean, Bool.and_eq_true, Bool.not_eq_true'] at hc
  exact hc.2

theorem clean_codes_iff : Clean (codes t) ↔ ∀ c ∈ t, isClean c = true := by
  constructor
  · exact fun h c hc => h c (mem_map_of_mem hc)
  · intro h c hc
    obtain ⟨d, hd, heq⟩ := mem_map.mp hc
    obtain rfl : d = c := by simpa using heq
    exact h d hd

theorem not_mem_maskToken (h : isSolid c = true) (n : Nat) : c ∉ maskToken n := by
  simp only [isSolid, Bool.and_eq_true, decide_eq_true_eq, Bool.not_eq_true'] at h
  intro hc
  simp only [maskToken, mem_cons, mem_append, not_mem_nil, or_false] at hc
  rcases hc with hc | hc | hc
  · exact h.1 hc
  · have hdigit : c.isDigit = true := Text.isDigit_of_mem_decimal hc
    rw [hdigit] at h
    exact Bool.noConfusion h.2
  · exact h.1 hc

/-- A solid character of a masked text stands between the items before it and the items behind
it. -/
theorem split_at_solid {a b : Text} (hc : isSolid c = true) (h : render items = a ++ c :: b) :
    ∃ before after, items = before ++ .code c :: after ∧ a = render before ∧ b = render after := by
  induction items generalizing a with
  | nil => exact absurd h (by simp)
  | cons i items ih =>
    cases i with
    | code d =>
      cases a with
      | nil =>
        obtain ⟨rfl, rfl⟩ := cons.inj (by simpa using h)
        exact ⟨[], items, rfl, rfl, rfl⟩
      | cons e a =>
        obtain ⟨rfl, htail⟩ := cons.inj (by simpa using h)
        obtain ⟨before, after, rfl, rfl, rfl⟩ := ih htail
        exact ⟨.code d :: before, after, rfl, rfl, rfl⟩
    | mark n =>
      rw [render_mark_cons] at h
      rcases append_eq_append_iff.mp h with ⟨a', ha, htail⟩ | ⟨c', hmask, hrest⟩
      · obtain ⟨before, after, rfl, rfl, rfl⟩ := ih htail
        exact ⟨.mark n :: before, after, rfl, by simpa using ha, rfl⟩
      · cases c' with
        | nil =>
          obtain ⟨before, after, rfl, hnil, rfl⟩ := ih (a := []) (by simpa using hrest.symm)
          refine ⟨.mark n :: before, after, rfl, ?_, rfl⟩
          rw [render_mark_cons, ← hnil, append_nil]
          simpa using hmask.symm
        | cons d c' =>
          obtain ⟨rfl, -⟩ := cons.inj (by simpa using hrest)
          exact absurd (by rw [hmask]; simp) (not_mem_maskToken hc n)

theorem split_at_plain {a b : Text} (ha : '\x00' ∉ a)
    (h : render items = a ++ b) : ∃ after, items = codes a ++ after ∧ b = render after := by
  induction a generalizing items with
  | nil => exact ⟨items, rfl, by simpa using h.symm⟩
  | cons c a ih =>
    simp only [mem_cons, not_or] at ha
    cases items with
    | nil => exact absurd h (by simp)
    | cons i items =>
      cases i with
      | code d =>
        obtain ⟨rfl, htail⟩ := cons.inj (by simpa using h)
        obtain ⟨after, rfl, rfl⟩ := ih ha.2 htail
        exact ⟨after, rfl, rfl⟩
      | mark n =>
        obtain ⟨heq, -⟩ := cons.inj (by simpa [maskToken] using h)
        exact absurd heq ha.1

theorem eq_codes_of_render (ht : '\x00' ∉ t) (h : render items = t) : items = codes t := by
  obtain ⟨after, rfl, hnil⟩ := split_at_plain (b := []) ht (by simpa using h)
  cases after with
  | nil => exact append_nil _
  | cons i after => cases i <;> exact absurd hnil (by simp [maskToken])

/-- A piece that, where it stands in a masked text, begins and ends between items: no null
character comes before its first solid character or after its last one. -/
def Sealed (piece : Text) : Prop :=
  ∃ a c b, piece = a ++ c :: b ∧ '\x00' ∉ a ∧ isSolid c = true ∧
    ('\x00' ∉ b ∨ ∃ b' d, b = b' ++ [d] ∧ isSolid d = true)

/-- A piece that cuts no token is the text of some items. -/
theorem Sealed.split (hp : Sealed piece) (h : render items = piece ++ rest) :
    ∃ before after, items = before ++ after ∧ piece = render before ∧ rest = render after := by
  obtain ⟨a, c, b, rfl, -, hc, hb⟩ := hp
  obtain ⟨before, after, rfl, rfl, htail⟩ :=
    split_at_solid (a := a) (b := b ++ rest) hc (by simpa using h)
  rcases hb with hb | ⟨b', d, rfl, hd⟩
  · obtain ⟨after, rfl, rfl⟩ := split_at_plain hb htail.symm
    exact ⟨before ++ .code c :: codes b, after, by simp, by simp, rfl⟩
  · obtain ⟨mid, after, rfl, rfl, rfl⟩ :=
      split_at_solid (a := b') (b := rest) hd (by simpa using htail.symm)
    exact ⟨before ++ .code c :: (mid ++ [.code d]), after, by simp, by simp, rfl⟩

theorem Sealed.ne_nil (hp : Sealed piece) : piece ≠ [] := by
  obtain ⟨a, c, b, rfl, -⟩ := hp
  simp

theorem Sealed.not_in_token {digits tail : Text} (hp : Sealed piece)
    (hdigits : ∀ c ∈ digits, c.isDigit = true) : digits ++ '\x00' :: tail ≠ piece ++ rest := by
  obtain ⟨a, c, b, rfl, ha, hc, -⟩ := hp
  simp only [isSolid, Bool.and_eq_true, decide_eq_true_eq, Bool.not_eq_true'] at hc
  induction digits generalizing a with
  | nil =>
    cases a with
    | nil =>
      intro h
      exact hc.1 (cons.inj (by simpa using h)).1.symm
    | cons d a =>
      intro h
      have heq := (cons.inj (by simpa using h)).1
      exact ha (by simp [← heq])
  | cons d digits ih =>
    cases a with
    | nil =>
      intro h
      have heq := (cons.inj (by simpa using h)).1
      have hdigit := hdigits d mem_cons_self
      rw [heq, hc.2] at hdigit
      exact Bool.noConfusion hdigit
    | cons e a =>
      intro h
      refine ih (fun x hx => hdigits x (mem_cons_of_mem _ hx)) a
        (fun hmem => ha (mem_cons_of_mem _ hmem)) ?_
      exact (cons.inj (by simpa using h)).2

end CodeConverter.Literal
