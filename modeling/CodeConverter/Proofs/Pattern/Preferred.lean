import CodeConverter.Proofs.Pattern.Found
import CodeConverter.Proofs.Text.Run

/-!
# The preferred outcome

`first p k s` is the first answer that the continuation `k` gives at an outcome of the pattern `p`
from the place `s`. Patterns that follow one another become continuations of each other
(`first_append`), so a text is taken apart from left to right: a greedy run stops at its end, a lazy
run stops at the first place where the continuation accepts, and a choice takes its second pattern
where the first one leads nowhere.
-/

namespace CodeConverter

open List Pattern.State

namespace Pattern

variable {p q : Pattern} {k : State → Option State} {s u : State} {set : Char → Bool}
    {run rest t : Text} {n : Nat}

/-- The first answer of the continuation at an outcome of the pattern. -/
def first (p : Pattern) (k : State → Option State) (s : State) : Option State :=
  (p.outcomes s).findSome? k

theorem first_append (p q : Pattern) (k : State → Option State) :
    first (p ++ q) k = first p (first q k) :=
  funext fun s => findSome?_flatMap q.outcomes k (p.outcomes s)

theorem first_group (n : Nat) (p : Pattern) (k : State → Option State) (s : State) :
    first (.group n p) k s = first p (fun t => k (t.remember n s)) s := by
  simp only [first, outcomes, findSome?_map, Function.comp_def]

theorem first_alt (p q : Pattern) (k : State → Option State) (s : State) :
    first (.alt p q) k s = (first p k s).or (first q k s) := by
  simp only [first, outcomes, findSome?_append]

theorem first_eq_none (h : ∀ piece t, Reads p s piece t → k t = none) : first p k s = none := by
  refine findSome?_eq_none_iff.mpr fun t ht => ?_
  obtain ⟨piece, hreads⟩ := reads_of_mem_outcomes ht
  exact h piece t hreads

theorem first_alt_left (h : first p k s = some u) : first (.alt p q) k s = some u := by
  rw [first_alt, h]
  rfl

theorem first_alt_right (hleft : first p k s = none) (h : first q k s = some u) :
    first (.alt p q) k s = some u := by
  rw [first_alt, hleft, h]
  rfl

theorem first_maybe_skip (hp : first p k s = none) (h : k s = some u) :
    first (maybe p) k s = some u := by
  refine first_alt_right hp ?_
  simpa [first, outcomes] using h

theorem first_literal (hahead : s.ahead = t ++ rest) (h : k (s.past t rest) = some u) :
    first (.literal t) k s = some u := by
  simpa [first, outcomes, eat_of_ahead hahead] using h

theorem first_literal_none (h : ¬ t <+: s.ahead) : first (.literal t) k s = none := by
  refine first_eq_none fun piece v hreads => ?_
  obtain ⟨-, rest, hahead, -⟩ := reads_literal_iff.mp hreads
  exact absurd ⟨rest, hahead.symm⟩ h

theorem first_symbol_none {c : Char} (h : s.ahead.head? ≠ some c) :
    first (.literal (c :: t)) k s = none := by
  refine first_literal_none ?_
  rintro ⟨u, hu⟩
  exact h (by rw [← hu]; rfl)

theorem first_of_outcomes {others : List State} (h : p.outcomes s = u :: others) {v : State}
    (hk : k u = some v) : first p k s = some v := by
  rw [first, h, findSome?_cons, hk]

theorem first_char {c : Char} (hahead : s.ahead = c :: rest) (hset : set c = true) :
    first (.char set) k s = k (s.past [c] rest) := by
  simp only [first, outcomes, hahead, hset, if_true, findSome?_singleton]
  rfl

theorem first_again (hgroup : s.groups.lookup n = some t) (hahead : s.ahead = t ++ rest)
    (h : k (s.past t rest) = some u) : first (.again n) k s = some u := by
  rw [lookup_groups, Option.map_eq_some_iff] at hgroup
  obtain ⟨capture, hcapture, rfl⟩ := hgroup
  simpa [first, outcomes, hcapture, eat_of_ahead hahead] using h

theorem first_again_none (hgroup : s.groups.lookup n = some t) (h : ¬ t <+: s.ahead) :
    first (.again n) k s = none := by
  refine first_eq_none fun piece v hreads => ?_
  obtain ⟨capture, rest, hlookup, -, hahead, -⟩ := reads_again_iff.mp hreads
  rw [lookup_groups, hlookup] at hgroup
  obtain rfl : capture.text = t := Option.some.inj hgroup
  exact absurd ⟨rest, hahead.symm⟩ h

theorem first_atStart (hindex : s.index = 0) (h : k s = some u) : first .atStart k s = some u := by
  simpa [first, outcomes, hindex] using h

theorem first_atEnd (hend : s.isEnd = true) (h : k s = some u) : first .atEnd k s = some u := by
  simpa [first, outcomes, hend] using h

theorem first_notAhead (hnone : p.outcomes s = []) (h : k s = some u) :
    first (.notAhead p) k s = some u := by
  simpa [first, outcomes, hnone] using h

/-- A repetition goes back to its start where the continuation refuses behind every round. -/
theorem first_star_back (h : k s = some u)
    (hother : ∀ piece v, Reads (.star p) s piece v → piece ≠ [] → k v = none) :
    first (.star p) k s = some u := by
  have hall : ∀ v ∈ (Pattern.star p).outcomes s, v = s ∨ k v = none := by
    intro v hv
    obtain ⟨piece, hreads⟩ := reads_of_mem_outcomes hv
    by_cases hpiece : piece = []
    · cases hreads with
      | starNil => exact .inl rfl
      | starCons _ hne _ => exact absurd (append_eq_nil_iff.mp hpiece).1 hne
    · exact .inr (hother piece v hreads hpiece)
  have hmem : s ∈ (Pattern.star p).outcomes s := (Reads.starNil p s).mem_outcomes
  rw [first]
  generalize (Pattern.star p).outcomes s = l at hall hmem
  induction l with
  | nil => cases hmem
  | cons v l ih =>
    rw [findSome?_cons]
    rcases hall v mem_cons_self with rfl | hv
    · rw [h]
    · rw [hv]
      refine ih (fun w hw => hall w (mem_cons_of_mem _ hw)) ((mem_cons.mp hmem).resolve_left ?_)
      rintro rfl
      rw [h] at hv
      cases hv

section

variable (hahead : s.ahead = run ++ rest)

include hahead

theorem State.stretch_eq_past (hrun : ∀ c ∈ run, set c = true)
    (hrest : ∀ c ∈ rest.head?, set c = false) (near : List State) :
    ∃ nearer, stretch set s.ahead s near = s.past run rest :: nearer := by
  induction run generalizing s near with
  | nil =>
    rw [past_nil_of_ahead (by simpa using hahead)]
    rw [nil_append] at hahead
    cases rest with
    | nil => exact ⟨near, by rw [hahead]; rfl⟩
    | cons c rest =>
      have hset : set c = false := hrest c rfl
      exact ⟨near, by simp [hahead, stretch, hset]⟩
  | cons c run ih =>
    have hset : set c = true := hrun c mem_cons_self
    obtain ⟨nearer, hnearer⟩ :=
      @ih (s.advance c (run ++ rest)) rfl (fun d hd => hrun d (mem_cons_of_mem _ hd)) (s :: near)
    rw [advance_eq_past, past_past] at hnearer
    refine ⟨nearer, ?_⟩
    rw [hahead, cons_append, stretch, if_pos hset]
    exact hnearer

theorem first_many (hrun : ∀ c ∈ run, set c = true)
    (hrest : ∀ c ∈ rest.head?, set c = false) (h : k (s.past run rest) = some u) :
    first (many set) k s = some u := by
  obtain ⟨nearer, hnearer⟩ := stretch_eq_past hahead hrun hrest []
  simp only [first, many, outcomes, hnearer, findSome?_cons, h]

theorem first_many1 (hne : run ≠ []) (hrun : ∀ c ∈ run, set c = true)
    (hrest : ∀ c ∈ rest.head?, set c = false) (h : k (s.past run rest) = some u) :
    first (many1 set) k s = some u := by
  cases run with
  | nil => exact absurd rfl hne
  | cons c run =>
    have htail := @first_many k (s.past [c] (run ++ rest)) u set run rest rfl
      (fun d hd => hrun d (mem_cons_of_mem _ hd)) hrest (by rwa [past_past])
    rw [many1, ← append_eq_seq, first_append, first_char hahead (hrun c mem_cons_self)]
    exact htail

end

/-- A greedy run goes back to the last place where the symbol stands without which the continuation
refuses. -/
theorem first_many_last {c : Char} (hk : ∀ v : State, v.ahead.head? ≠ some c → k v = none)
    (hahead : s.ahead = run ++ c :: rest) (hrun : ∀ x ∈ run, set x = true) (hrest : c ∉ rest)
    (h : k (s.past run (c :: rest)) = some u) : first (many set) k s = some u := by
  have hstep : ∀ {s : State} {x : Char} {t : Text}, s.ahead = x :: t → set x = true →
      first (many set) k s = (first (many set) k (s.past [x] t)).or (k s) := by
    intro s x t hs hx
    simp only [first, many, outcomes, hs, stretch, hx, if_true]
    rw [stretch_append, findSome?_append]
    simp only [advance_eq_past, findSome?_cons, findSome?_nil]
    cases k s <;> rfl
  induction run generalizing s with
  | nil =>
    rw [nil_append] at hahead
    rw [past_nil_of_ahead hahead] at h
    by_cases hc : set c = true
    · have hnone : first (many set) k (s.past [c] rest) = none := by
        refine first_eq_none fun piece v hreads => hk v fun hhead => hrest ?_
        obtain ⟨-, after, hafter, rfl⟩ := reads_chars_iff.mp hreads
        rw [show rest = piece ++ after from hafter]
        exact mem_append_right _ (mem_of_mem_head? hhead)
      rw [hstep hahead hc, hnone, h]
      rfl
    · simp [first, many, outcomes, hahead, stretch, hc, h]
  | cons x run ih =>
    have htail :=
      @ih (s.past [x] (run ++ c :: rest)) rfl (fun d hd => hrun d (mem_cons_of_mem _ hd))
      (by rwa [past_past])
    rw [cons_append] at hahead
    rw [hstep hahead (hrun x mem_cons_self), htail]
    rfl

theorem nonempty_run_of_reads {piece : Text} (h : Reads (many1 set) s piece u) :
    piece ≠ [] ∧ (∀ c ∈ piece, set c = true) ∧ s.ahead = piece ++ u.ahead := by
  obtain ⟨a, v, b, rfl, ha, hb⟩ := reads_seq_iff.mp h
  obtain ⟨c, rest, rfl, hc, -, -⟩ := reads_char_iff.mp ha
  obtain ⟨hall, -⟩ := reads_chars_iff.mp hb
  exact ⟨cons_ne_nil _ _, forall_mem_cons.mpr ⟨hc, hall⟩, h.ahead_eq⟩

theorem first_many1_none (h : ∀ c ∈ s.ahead.head?, set c = false) :
    first (many1 set) k s = none := by
  rw [many1, ← append_eq_seq, first_append]
  cases hahead : s.ahead with
  | nil => simp [first, outcomes, hahead]
  | cons c rest =>
    have hset : set c = false := h c (by rw [hahead]; rfl)
    simp [first, outcomes, hahead, hset]

/-- A lazy run is passed to the first place where the continuation accepts. -/
theorem first_few (hahead : s.ahead = run ++ rest) (hrun : ∀ c ∈ run, set c = true)
    (hnone : ∀ a b, run = a ++ b → b ≠ [] → k (s.past a (b ++ rest)) = none)
    (h : k (s.past run rest) = some u) : first (few set) k s = some u := by
  rw [first, few, outcomes]
  induction run generalizing s with
  | nil =>
    rw [past_nil_of_ahead (by simpa using hahead)] at h
    cases s.ahead with
    | nil => simpa [stretch] using h
    | cons c rest =>
      rw [stretch]
      split
      · rw [stretch_append]
        simp [h]
      · simp [h]
  | cons c run ih =>
    have hset : set c = true := hrun c mem_cons_self
    have hhere : k s = none := by
      have hfirst := hnone [] (c :: run) rfl (cons_ne_nil _ _)
      rwa [past_nil_of_ahead hahead] at hfirst
    have htail := @ih (s.past [c] (run ++ rest)) rfl (fun d hd => hrun d (mem_cons_of_mem _ hd))
      (fun a b hsplit hb => by
        rw [past_past]
        exact hnone ([c] ++ a) b (by rw [hsplit]; rfl) hb) (by rwa [past_past])
    rw [hahead, cons_append, stretch, if_pos hset, stretch_append, reverse_append,
      findSome?_append]
    simp only [reverse_singleton, findSome?_cons, hhere, findSome?_nil, Option.none_or]
    exact htail

theorem first_few1 (hahead : s.ahead = run ++ rest) (hne : run ≠ [])
    (hrun : ∀ c ∈ run, set c = true)
    (hnone : ∀ a b, run = a ++ b → b ≠ [] → k (s.past a (b ++ rest)) = none)
    (h : k (s.past run rest) = some u) : first (few1 set) k s = some u := by
  cases run with
  | nil => exact absurd rfl hne
  | cons c run =>
    have htail := @first_few k (s.past [c] (run ++ rest)) u set run rest rfl
      (fun d hd => hrun d (mem_cons_of_mem _ hd)) (fun a b hsplit hb => by
        rw [past_past]
        exact hnone ([c] ++ a) b (by rw [hsplit]; rfl) hb) (by rwa [past_past])
    rw [few1, ← append_eq_seq, first_append, first_char hahead (hrun c mem_cons_self)]
    exact htail

/-- Blanks lead to no place where the continuation accepts, if it refuses inside a text that is not
blank. -/
theorem first_blanks_none (hahead : s.ahead = t ++ rest) (hsolid : ∃ x ∈ t, Text.isBlank x = false)
    (hk : ∀ (v : State) (a b : Text), (∀ x ∈ a, Text.isBlank x = true) → t = a ++ b → b ≠ [] →
    v.ahead = b ++ rest → k v = none) : first blanks k s = none := by
  refine first_eq_none fun piece v hreads => ?_
  obtain ⟨hpiece, after, hsplit, rfl⟩ := reads_chars_iff.mp hreads
  obtain ⟨x, hx, hxblank⟩ := hsolid
  have hnot : x ∉ piece := fun hmem => by
    rw [hpiece x hmem] at hxblank
    cases hxblank
  rw [hahead] at hsplit
  rcases append_eq_append_iff.mp hsplit with ⟨w, rfl, -⟩ | ⟨w, rfl, rfl⟩
  · exact absurd (mem_append_left w hx) hnot
  · exact hk _ piece w hpiece rfl (fun hnil => hnot (by simpa [hnil] using hx)) rfl

theorem State.groups_remember_past (s : State) (piece : Text) (hahead : s.ahead = piece ++ rest)
    (n : Nat) : ((s.past piece rest).remember n s).groups = (n, piece) :: s.groups :=
  groups_remember (.literal s piece rest hahead) n

/-- At every place where the text follows and the pieces are remembered, the continuation accepts,
and `result` is remembered in the end. -/
def Completes (k : State → Option State) (ahead : Text)
    (groups result : List (Nat × Text)) : Prop :=
  ∀ s : State, s.ahead = ahead → s.groups = groups → ∃ u, k s = some u ∧ u.groups = result

namespace Completes

variable {groups result : List (Nat × Text)}

section

variable (h : Completes k rest groups result)

include h

/-- A literal text is read before the rest. -/
theorem literal : Completes (first (.literal t) k) (t ++ rest) groups result := by
  intro s hahead hgroups
  obtain ⟨u, hu, hresult⟩ := h (s.past t rest) rfl hgroups
  exact ⟨u, first_literal hahead hu, hresult⟩

/-- A run is read whole where the rest does not go on with it. -/
theorem many (hrun : ∀ c ∈ run, set c = true)
    (hrest : ∀ c ∈ rest.head?, set c = false) :
    Completes (first (many set) k) (run ++ rest) groups result := by
  intro s hahead hgroups
  obtain ⟨u, hu, hresult⟩ := h (s.past run rest) rfl hgroups
  exact ⟨u, first_many hahead hrun hrest hu, hresult⟩

theorem many1 (hne : run ≠ []) (hrun : ∀ c ∈ run, set c = true)
    (hrest : ∀ c ∈ rest.head?, set c = false) :
    Completes (first (many1 set) k) (run ++ rest) groups result := by
  intro s hahead hgroups
  obtain ⟨u, hu, hresult⟩ := h (s.past run rest) rfl hgroups
  exact ⟨u, first_many1 hahead hne hrun hrest hu, hresult⟩

theorem again (hgroup : groups.lookup n = some t) :
    Completes (first (.again n) k) (t ++ rest) groups result := by
  intro s hahead hgroups
  obtain ⟨u, hu, hresult⟩ := h (s.past t rest) rfl hgroups
  exact ⟨u, first_again (hgroups.symm ▸ hgroup) hahead hu, hresult⟩

end

/-- A group remembers what it reads. -/
theorem group (h : Completes k rest ((n, t) :: groups) result)
    (hp : ∀ {k : State → Option State} {s u : State}, s.ahead = t ++ rest →
    k (s.past t rest) = some u → first p k s = some u) :
    Completes (first (.group n p) k) (t ++ rest) groups result := by
  intro s hahead hgroups
  obtain ⟨u, hu, hresult⟩ :=
    h ((s.past t rest).remember n s) rfl (by rw [groups_remember_past s t hahead, hgroups])
  exact ⟨u, by rw [first_group]; exact hp hahead hu, hresult⟩

/-- What a greedy run remembers ends at the last symbol of the text. -/
theorem group_last {c : Char}
    (h : Completes (first (.literal [c]) k) (c :: rest) ((n, t) :: groups) result)
    (ht : ∀ x ∈ t, set x = true) (hrest : c ∉ rest) :
    Completes (first (.group n (Pattern.many set)) (first (.literal [c]) k)) (t ++ c :: rest) groups
    result := by
  intro s hahead hgroups
  obtain ⟨u, hu, hresult⟩ := h ((s.past t (c :: rest)).remember n s) rfl
    (by rw [groups_remember_past s t hahead, hgroups])
  refine ⟨u, ?_, hresult⟩
  rw [first_group]
  exact first_many_last (fun v hv => first_symbol_none hv) hahead ht hrest hu

/-- What a lazy run remembers ends at the first place where the continuation accepts. -/
theorem group_lazy (h : Completes k rest ((n, t) :: groups) result)
    (hnone : ∀ (v : State) (a b : Text), t = a ++ b → b ≠ [] → v.ahead = b ++ rest → k v = none)
    (hp : ∀ {k : State → Option State} {s u : State}, s.ahead = t ++ rest →
      (∀ a b, t = a ++ b → b ≠ [] → k (s.past a (b ++ rest)) = none) → k (s.past t rest) = some u →
      first p k s = some u) : Completes (first (.group n p) k) (t ++ rest) groups result := by
  intro s hahead hgroups
  obtain ⟨u, hu, hresult⟩ :=
    h ((s.past t rest).remember n s) rfl (by rw [groups_remember_past s t hahead, hgroups])
  refine ⟨u, ?_, hresult⟩
  rw [first_group]
  exact hp hahead (fun a b hab hb => hnone _ a b hab hb rfl) hu

theorem atEnd (groups : List (Nat × Text)) : Completes (first .atEnd some) [] groups groups := by
  intro s hahead hgroups
  exact ⟨s, first_atEnd (by simp [isEnd, hahead]) rfl, hgroups⟩

theorem alt_left (h : Completes (first p k) t groups result) :
    Completes (first (.alt p q) k) t groups result := by
  intro s hahead hgroups
  obtain ⟨u, hu, hresult⟩ := h s hahead hgroups
  exact ⟨u, first_alt_left hu, hresult⟩

section

variable (hnone : ∀ s : State, s.ahead = t → s.groups = groups → first p k s = none)

include hnone

theorem alt_right
    (h : Completes (first q k) t groups result) :
    Completes (first (.alt p q) k) t groups result := by
  intro s hahead hgroups
  obtain ⟨u, hu, hresult⟩ := h s hahead hgroups
  exact ⟨u, first_alt_right (hnone s hahead hgroups) hu, hresult⟩

theorem maybe_skip
    (h : Completes k t groups result) : Completes (first (maybe p) k) t groups result := by
  intro s hahead hgroups
  obtain ⟨u, hu, hresult⟩ := h s hahead hgroups
  exact ⟨u, first_maybe_skip (hnone s hahead hgroups) hu, hresult⟩

end

end Completes

theorem matchAt_eq_first (p : Pattern) (subject : Text) (s : State) :
    p.matchAt subject s = (first p some { s with captures := [] }).map fun last =>
    ⟨subject, s, last⟩ := by
  rw [matchAt_eq, first]
  cases p.outcomes { s with captures := [] } <;> rfl

theorem matchStart_of_first (h : first p some (start t) = some u) :
    ∃ m, p.matchStart t = some m ∧ ∀ i, m.group? i = u.groups.lookup i := by
  refine ⟨⟨t, .start t, u⟩, ?_, fun i => (lookup_groups u i).symm⟩
  rw [matchStart, matchAt_eq_first]
  exact congrArg (Option.map _) h

end Pattern

end CodeConverter
