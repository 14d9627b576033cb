import CodeConverter.Proofs.Pattern.Replace

/-!
# Texts drawn from other texts

A text is drawn from another if it has every character at most as often, apart from the characters
of a list. Cutting, reordering and replacing matches by drawn texts all stay within this relation,
so one fact about a respelling bounds its digits, quotes and braces alike.
-/

namespace CodeConverter.Text

open List

variable {a b : Text} {p : Pattern}

/-- A text whose characters are taken from another text, apart from listed ones. -/
def Drawn (listed u x : Text) : Prop :=
  ∀ set : Char → Bool, (∀ c ∈ listed, set c = false) → x.countP set ≤ u.countP set

namespace Drawn

variable {listed u x y : Text} {c : Char}

theorem of_isInfix (h : x <:+: u) : Drawn listed u x := fun _ _ => h.sublist.countP_le

theorem trans (h : Drawn listed u x) (h' : Drawn listed x y) : Drawn listed u y := fun set hset =>
  Nat.le_trans (h' set hset) (h set hset)

theorem mono {more : Text} (h : Drawn listed u x) (hmore : listed ⊆ more) : Drawn more u x :=
  fun set hset =>
  h set fun c hc => hset c (hmore hc)

theorem of_subset (h : x ⊆ listed) : Drawn listed u x := by
  intro set hset
  rw [countP_eq_zero.mpr fun c hc => by simp [hset c (h hc)]]
  exact Nat.zero_le _

section

variable (h : Drawn listed u x)

include h

theorem enclose (ha : a ⊆ listed) (hb : b ⊆ listed) : Drawn listed u (a ++ x ++ b) := by
  intro set hset
  have ha' := of_subset (u := []) ha set hset
  have hb' := of_subset (u := []) hb set hset
  have hx := h set hset
  simp only [countP_append, countP_nil] at *
  omega

theorem mem (hc : c ∈ x) : c ∈ u ∨ c ∈ listed := by
  by_cases hlisted : c ∈ listed
  · exact .inr hlisted
  · have hset : ∀ d ∈ listed, decide (d = c) = false := by
      intro d hd
      exact decide_eq_false fun heq => hlisted (heq ▸ hd)
    have hpos : 0 < x.countP (· = c) := countP_pos_iff.mpr ⟨c, hc, by simp⟩
    obtain ⟨d, hd, heq⟩ := countP_pos_iff.mp (Nat.lt_of_lt_of_le hpos (h (· = c) hset))
    obtain rfl : d = c := by simpa using heq
    exact .inl hd

theorem countP_le (set : Char → Bool) (hset : listed.all (fun c => !set c) = true) :
    x.countP set ≤ u.countP set :=
  h set fun c hc => by simpa using all_eq_true.mp hset c hc

theorem count_le (hc : c ∉ listed) : x.count c ≤ u.count c :=
  h (· == c) fun _ hd => beq_false_of_ne fun heq => hc (heq ▸ hd)

end

end Drawn

theorem compatible_drawn (listed : Text) : Pattern.Compatible fun out t => Drawn listed t out where
  nil := .of_isInfix infix_rfl
  append := by
    intro a b c d hab hcd set hset
    have := hab set hset
    have := hcd set hset
    simp only [countP_append]
    omega

theorem drawn_replaceBy {listed : Text} {g : Match → Text} {t : Text}
    (h : ∀ m : Match, m.Of p t → Drawn listed m.whole (g m)) : Drawn listed t (p.replaceBy g t) :=
  Pattern.replaceBy_rel (compatible_drawn listed) (fun _ _ => .of_isInfix infix_rfl) h

theorem drawn_replace {listed old new : Text} (t : Text) (hold : old ≠ [] := by decide)
    (hnew : new ⊆ listed := by decide) : Drawn listed t (replace old new t) :=
  Pattern.replace_rel (compatible_drawn listed) hold (fun _ _ => .of_isInfix infix_rfl)
    (.of_subset hnew)

/-- Adding at most `k` characters of one class for every character of another. -/
theorem compatible_countP_le_add (set other : Char → Bool) (k : Nat) :
    Pattern.Compatible fun out t => out.countP set ≤ t.countP set + k * t.countP other where
  nil := Nat.zero_le _
  append := by
    intro a b c d hab hcd
    simp only [countP_append, Nat.mul_add]
    omega

/-- Enclosing a group of every match adds the characters of a class around it, once for each
character that the matches need. -/
theorem countP_enclose_le {set other : Char → Bool} {k : Nat} (hp : p.needs other = true)
    (hk : (a ++ b).countP set = k) (t : Text) :
    (p.replaceBy (fun m => a ++ m.group 1 ++ b) t).countP set ≤ t.countP set + k * t.countP
    other := by
  refine Pattern.replaceBy_rel (compatible_countP_le_add set other k) (fun c _ =>
    Nat.le_add_right _ _) fun m hof => ?_
  have hpos : 0 < m.whole.countP other := countP_pos_iff.mpr (hof.reads.needs hp)
  have hgroup : (m.group 1).countP set ≤ m.whole.countP set :=
    (hof.group_isInfix 1).sublist.countP_le
  have hk' : k ≤ k * m.whole.countP other := Nat.le_mul_of_pos_right k hpos
  simp only [countP_append] at hk ⊢
  omega

end CodeConverter.Text
