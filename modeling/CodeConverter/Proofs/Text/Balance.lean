import CodeConverter.Line.Machine
import CodeConverter.Proofs.Text.Part

/-!
# Balanced braces

Reading a text, the number of open braces goes up and down. `openAfter n t` is that number after
the text `t`, starting from `n`, if no brace is closed that is not open. It depends on the braces of
the text only, so indentation and the breaks between lines have no part in it.
-/

namespace CodeConverter.Text

open List Bool

variable {a : Text}

/-- The two braces. -/
def isBrace (c : Char) : Bool :=
  c = '{' || c = '}'

/-- The number of open braces after a text that starts with `n` of them, unless one is closed that
is not open. -/
def openAfter : Nat → Text → Option Nat
  | n, [] => some n
  | n, c :: t =>
    if c = '{' then openAfter (n + 1) t
    else if c = '}' then
      match n with
      | 0 => none
      | n + 1 => openAfter n t
    else openAfter n t

/-- Every brace of the text is closed, and only after it was opened. -/
def Balanced (t : Text) : Prop :=
  openAfter 0 t = some 0

instance (t : Text) : Decidable (Balanced t) :=
  inferInstanceAs (Decidable (_ = _))

variable {n m k : Nat} {t u : Text}

@[simp] theorem openAfter_open (n : Nat) (t : Text) :
    openAfter n ('{' :: t) = openAfter (n + 1) t := rfl

@[simp] theorem openAfter_close (n : Nat) (t : Text) :
    openAfter (n + 1) ('}' :: t) = openAfter n t := rfl

theorem openAfter_other {c : Char} (h : isBrace c = false) (n : Nat) (t : Text) :
    openAfter n (c :: t) = openAfter n t := by
  simp only [isBrace, or_eq_false_iff, decide_eq_false_iff_not] at h
  show (if c = '{' then _ else if c = '}' then _ else _) = _
  rw [if_neg h.1, if_neg h.2]

theorem brace_cases (c : Char) : c = '{' ∨ c = '}' ∨ isBrace c = false := by
  by_cases hopen : c = '{'
  · exact .inl hopen
  by_cases hclose : c = '}'
  · exact .inr (.inl hclose)
  · exact .inr (.inr (by simp only [isBrace, hopen, hclose, decide_false, Bool.or_self]))

theorem openAfter_append (n : Nat) (t u : Text) :
    openAfter n (t ++ u) = (openAfter n t).bind (openAfter · u) := by
  induction t generalizing n with
  | nil => rfl
  | cons c t ih =>
    rw [cons_append]
    rcases brace_cases c with rfl | rfl | hother
    · rw [openAfter_open, openAfter_open, ih]
    · cases n with
      | zero => rfl
      | succ n => rw [openAfter_close, openAfter_close, ih]
    · rw [openAfter_other hother, openAfter_other hother, ih]

theorem openAfter_append_of (h : openAfter n t = some m) :
    openAfter n (t ++ u) = openAfter m u := by
  rw [openAfter_append, h]
  rfl

theorem openAfter_filter (n : Nat) (t : Text) : openAfter n (t.filter isBrace) = openAfter n t := by
  induction t generalizing n with
  | nil => rfl
  | cons c t ih =>
    rcases brace_cases c with rfl | rfl | hother
    · rw [filter_cons_of_pos rfl, openAfter_open, openAfter_open, ih]
    · rw [filter_cons_of_pos rfl]
      cases n with
      | zero => rfl
      | succ n => rw [openAfter_close, openAfter_close, ih]
    · rw [filter_cons_of_neg (by rw [hother]; exact false_ne_true), openAfter_other hother, ih]

theorem openAfter_congr (h : t.filter isBrace = u.filter isBrace) (n : Nat) :
    openAfter n t = openAfter n u := by
  rw [← openAfter_filter n t, h, openAfter_filter]

theorem openAfter_add (h : openAfter n t = some m) (k : Nat) :
    openAfter (n + k) t = some (m + k) := by
  induction t generalizing n with
  | nil =>
    obtain rfl : n = m := Option.some.inj h
    rfl
  | cons c t ih =>
    rcases brace_cases c with rfl | rfl | hother
    · rw [openAfter_open] at h ⊢
      rw [show n + k + 1 = n + 1 + k from by omega]
      exact ih h
    · cases n with
      | zero => cases h
      | succ n =>
        rw [show n + 1 + k = n + k + 1 from by omega, openAfter_close]
        exact ih h
    · rw [openAfter_other hother] at h ⊢
      exact ih h

/-- The counts of braces differ by what is left open. -/
theorem count_of_openAfter (h : openAfter n t = some m) : n + t.count '{' = m + t.count '}' := by
  induction t generalizing n with
  | nil =>
    obtain rfl : n = m := Option.some.inj h
    rfl
  | cons c t ih =>
    rcases brace_cases c with rfl | rfl | hother
    · have hcount := ih h
      rw [count_cons_self, count_cons_of_ne (by decide)]
      omega
    · cases n with
      | zero => cases h
      | succ n =>
        have hcount := ih h
        rw [count_cons_self, count_cons_of_ne (by decide)]
        omega
    · rw [openAfter_other hother] at h
      have hne : ∀ b, isBrace b = true → c ≠ b := by
        rintro b hb rfl
        rw [hother] at hb
        cases hb
      rw [count_cons_of_ne (hne _ rfl), count_cons_of_ne (hne _ rfl)]
      exact ih h

theorem openAfter_of_plain (h : ∀ c ∈ t, isBrace c = false) (n : Nat) : openAfter n t = some n := by
  rw [← openAfter_filter, filter_eq_nil_iff.mpr fun c hc => by rw [h c hc]; exact false_ne_true]
  rfl

namespace Balanced

theorem openAfter (h : Balanced t) (n : Nat) : openAfter n t = some n := by
  have hadd := openAfter_add h n
  rwa [Nat.zero_add] at hadd

theorem of_plain (h : ∀ c ∈ t, isBrace c = false) : Balanced t := openAfter_of_plain h 0

section

variable (ht : Balanced t)

include ht

theorem append (hu : Balanced u) : Balanced (t ++ u) := by
  unfold Balanced
  rw [openAfter_append_of ht]
  exact hu

theorem lead (ha : Balanced a) : Balanced (a ++ t) := ha.append ht

theorem trail (ha : Balanced a) : Balanced (t ++ a) := ht.append ha

theorem enclose {b : Text} (ha : Balanced a) (hb : Balanced b) :
    Balanced (a ++ t ++ b) := (ht.lead ha).trail hb

end

end Balanced

theorem join_nil_left (pieces : List Text) : join [] pieces = pieces.flatten := by
  induction pieces with
  | nil => rfl
  | cons piece pieces ih =>
    cases pieces with
    | nil => rw [join_singleton, flatten_cons, flatten_nil, append_nil]
    | cons next pieces =>
      rw [join_cons_cons, ih]
      rfl

theorem filter_unlines {set : Char → Bool} (hset : set '\n' = false) (ls : List Text) :
    (unlines ls).filter set = ls.flatten.filter set := by
  rw [unlines, filter_join, filter_cons_of_neg (by rw [hset]; exact false_ne_true), filter_nil,
    join_nil_left, filter_flatten]

theorem openAfter_unlines (n : Nat) (ls : List Text) :
    Text.openAfter n (unlines ls) = Text.openAfter n ls.flatten :=
  openAfter_congr (filter_unlines rfl ls) n

theorem filter_indentLines (size depth : Nat) (t : Text) :
    (indentLines size depth t).flatten.filter isBrace = t.filter isBrace := by
  have hline : ∀ l : Text,
      (if l.isEmpty then l else replicate (depth * size) ' ' ++ l).filter isBrace =
      l.filter isBrace := by
    intro l
    split
    · rfl
    · rw [filter_append, filter_replicate_of_neg (by decide), nil_append]
  have hlines :
      (indentLines size depth t).flatten.filter isBrace = (lines t).flatten.filter isBrace := by
    rw [filter_flatten, filter_flatten, indentLines, map_map]
    exact congrArg flatten (map_congr_left fun l _ => hline l)
  rw [hlines, ← filter_unlines rfl]
  exact congrArg (filter isBrace) (join_splitOn '\n' t)

theorem filter_eq_nil_of_blank (h : ∀ c ∈ t, isBlank c = true) : t.filter isBrace = [] := by
  refine filter_eq_nil_iff.mpr fun c hc => ?_
  have hblank := h c hc
  rcases brace_cases c with rfl | rfl | hother
  · cases hblank
  · cases hblank
  · rw [hother]
    exact false_ne_true

theorem filter_strip (t : Text) : (strip t).filter isBrace = t.filter isBrace := by
  obtain ⟨lead, gap, heq, hlead, hgap⟩ := strip_parts t
  conv => rhs; rw [heq]
  rw [filter_append, filter_append, filter_eq_nil_of_blank hlead, filter_eq_nil_of_blank hgap,
    nil_append, append_nil]

theorem filter_stripStart (t : Text) : (stripStart t).filter isBrace = t.filter isBrace := by
  have hparts : t.takeWhile isBlank ++ t.dropWhile isBlank = t := takeWhile_append_dropWhile
  conv => rhs; rw [← hparts]
  rw [filter_append, filter_eq_nil_of_blank fun c hc => all_eq_true.mp all_takeWhile c hc]
  rfl

end CodeConverter.Text
