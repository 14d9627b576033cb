import CodeConverter.Proofs.Pattern.Preferred

/-!
# Fields

A field is a run of characters between an opening text and the next closing character. Rewriting the
fields of a text goes from left to right: `Rewritten` says what becomes of the text from a place on,
and its rules pass over one piece of the text each.
-/

namespace CodeConverter.Pattern

open List hiding set

variable {set : Char → Bool} {greedy : Bool} {close : Char}
    {opening inner piece rest out subject t : Text} {s : State} {g : Text → Text} {p : Pattern}

/-- A run of characters between an opening text and a closing character. -/
def field (opening : Text) (set : Char → Bool) (greedy : Bool) (close : Char) : Pattern :=
  .literal opening ++ .group 1 (.chars set greedy) ++ .literal [close]

theorem matchAt_field_none
    (h : ∀ inner rest, s.ahead = opening ++ (inner ++ close :: rest) → ∃ c ∈ inner, set c = false) :
    (field opening set greedy close).matchAt subject s = none := by
  refine matchAt_eq_none fun piece u hreads => ?_
  have hahead : s.ahead = piece ++ u.ahead := hreads.ahead_eq
  simp only [field, append_eq_seq, reads_seq_iff, reads_group_iff, reads_literal_iff,
    reads_chars_iff] at hreads
  obtain ⟨_, _, _, rfl, ⟨_, _, inner, rfl, ⟨rfl, -⟩, _, ⟨hinner, -⟩, -⟩, rfl, -⟩ := hreads
  obtain ⟨c, hc, hset⟩ := h inner u.ahead (by rw [hahead]; simp)
  rw [hinner c hc] at hset
  cases hset

theorem first_chars {k : State → Option State} {u : State}
    (hahead : s.ahead = inner ++ close :: rest)
    (hinner : ∀ c ∈ inner, set c = true) (hclose : close ∉ inner)
    (hstop : greedy = true → set close = false)
    (hk : ∀ t : State, t.ahead.head? ≠ some close → k t = none)
    (h : k (s.past inner (close :: rest)) = some u) : first (.chars set greedy) k s = some u := by
  cases greedy with
  | true => exact first_many hahead hinner (by simpa using hstop rfl) h
  | false =>
    refine first_few hahead hinner (fun a b hsplit hb => hk _ ?_) h
    obtain ⟨c, b, rfl⟩ := exists_cons_of_ne_nil hb
    rintro ⟨⟩
    exact hclose (by rw [hsplit]; simp)

/-- A field is found up to the first closing character. -/
theorem matchAt_field (subject : Text) (hahead : s.ahead = opening ++ (inner ++ close :: rest))
    (hinner : ∀ c ∈ inner, set c = true) (hclose : close ∉ inner)
    (hstop : greedy = true → set close = false) :
    ∃ m, (field opening set greedy close).matchAt subject s = some m ∧ m.group 1 = inner ∧
    m.last.ahead = rest ∧ s.index < m.last.index := by
  let inside := State.past { s with captures := [] } opening (inner ++ close :: rest)
  have hfirst : first (field opening set greedy close) some { s with captures := [] } =
      some (((inside.past inner (close :: rest)).remember 1 inside).past [close] rest) := by
    rw [field, first_append, first_append]
    refine first_literal hahead ?_
    rw [first_group]
    refine first_chars rfl hinner hclose hstop (fun t ht => first_literal_none ?_)
      (first_literal rfl rfl)
    rintro ⟨rest, hrest⟩
    exact ht (by rw [← show _ = t.ahead from hrest]; rfl)
  rw [matchAt_eq_first, hfirst]
  refine ⟨_, rfl, ?_, rfl, ?_⟩
  · simp [inside, Match.group, Match.group?, State.past, State.remember, Capture.text]
  · simp only [inside, State.past, State.remember, length_singleton]
    omega

/-- Replacing fields from a place on gives the text. -/
def Rewrites (p : Pattern) (g : Text → Text) (subject : Text) (s : State) (out : Text) : Prop :=
  ∀ fuel : Text, s.ahead.length ≤ fuel.length →
    (p.segmentsFrom subject fuel s).flatMap
    (fun | .plain c => [c] | .found m => g (m.group 1)) = out

namespace Rewrites

variable {p : Pattern}

theorem skip (hahead : s.ahead = piece ++ rest) (h : Rewrites p g subject (s.past piece rest) out)
    (hnone : ∀ a b, piece = a ++ b → b ≠ [] → p.matchAt subject (s.past a (b ++ rest)) = none) :
    Rewrites p g subject s (piece ++ out) := by
  intro fuel hfuel
  rw [hahead, length_append] at hfuel
  have hlater : rest.length ≤ (fuel.drop piece.length).length := by
    rw [length_drop]
    omega
  rw [segmentsFrom_skip hahead (by omega) hnone, flatMap_append, h _ hlater, flatMap_map]
  simp

theorem found {m : Match} (hm : p.matchAt subject s = some m) (hmoved : s.index < m.last.index)
    (hshort : m.last.ahead.length < s.ahead.length) (h : Rewrites p g subject m.last out) :
    Rewrites p g subject s (g (m.group 1) ++ out) := by
  intro fuel hfuel
  cases fuel with
  | nil => exact absurd (Nat.lt_of_lt_of_le hshort hfuel) (Nat.not_lt_zero _)
  | cons d fuel =>
    rw [length_cons] at hfuel
    rw [segmentsFrom_of_match hm hmoved, flatMap_cons, h _ (by omega)]

end Rewrites

/-- From every place where the first text follows, replacing fields gives the second one. -/
def Rewritten (p : Pattern) (g : Text → Text) (subject t out : Text) : Prop :=
  ∀ s : State, s.ahead = t → Rewrites p g subject s out

theorem Rewritten.replaceBy_eq (h : Rewritten p g t t out) :
    p.replaceBy (fun m => g (m.group 1)) t = out :=
  h (.start t) rfl t (Nat.le_refl _)

namespace Rewritten

theorem nil (hp : p.needs (fun _ => true) = true) : Rewritten p g subject [] [] := by
  intro s hahead fuel _
  have hnone : p.matchAt subject s = none := by
    refine matchAt_eq_none fun piece u hreads => ?_
    obtain ⟨c, hc, -⟩ := hreads.needs hp
    have hnil : [] = piece ++ u.ahead := hahead.symm.trans hreads.ahead_eq
    rw [(append_eq_nil_iff.mp hnil.symm).1] at hc
    cases hc
  rw [segmentsFrom_at_end hnone hahead]
  rfl

theorem skip (h : Rewritten p g subject rest out)
    (hnone : ∀ a b, piece = a ++ b → b ≠ [] → ∀ s : State, s.ahead = b ++ rest →
    p.matchAt subject s = none) : Rewritten p g subject (piece ++ rest) (piece ++ out) :=
  fun _ hahead => .skip hahead (h _ rfl) fun a b hab hb => hnone a b hab hb _ rfl

theorem found (h : Rewritten (field opening set greedy close) g subject rest out)
    (hinner : ∀ c ∈ inner, set c = true)
    (hclose : close ∉ inner) (hstop : greedy = true → set close = false) :
    Rewritten (field opening set greedy close) g subject (opening ++ (inner ++ close :: rest))
    (g inner ++ out) := by
  intro s hahead
  obtain ⟨m, hm, rfl, hlast, hmoved⟩ := matchAt_field subject hahead hinner hclose hstop
  refine .found hm hmoved ?_ (h _ hlast)
  simp only [hahead, hlast, length_append, length_cons]
  omega

end Rewritten

end CodeConverter.Pattern
