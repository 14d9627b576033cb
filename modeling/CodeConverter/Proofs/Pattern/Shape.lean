import CodeConverter.Proofs.Pattern.Reading
import Mathlib.Data.List.Basic

/-!
# What can be read off a pattern

Functions computed from a pattern alone bound what it can read: the characters it uses, how
much it reads at least, how a piece can end, and for a remembered piece the characters inside and
outside it and the room behind it. Each comes with the theorem that every reading keeps to it.
-/

namespace CodeConverter

open Bool

open List hiding set

variable {p q : Pattern} {s t : State} {piece inner after : Text} {d : Char} {k : Nat}

namespace Pattern

/-- Whether the character can occur in what the pattern reads. -/
def uses (d : Char) : Pattern → Bool
  | .literal t => t.contains d
  | .char set => set d
  | .chars set _ => set d
  | .seq p q => p.uses d || q.uses d
  | .alt p q => p.uses d || q.uses d
  | .star p => p.uses d
  | .group _ p => p.uses d
  | .again _ => true
  | _ => false

/-- The least number of characters that the pattern reads. -/
def minLength : Pattern → Nat
  | .literal t => t.length
  | .char _ => 1
  | .seq p q => p.minLength + q.minLength
  | .alt p q => min p.minLength q.minLength
  | .group _ p => p.minLength
  | _ => 0

/-- Whether every piece that the pattern reads has a character of a class. -/
def needs (set : Char → Bool) : Pattern → Bool
  | .literal t => t.any set
  | .seq p q => p.needs set || q.needs set
  | .alt p q => p.needs set && q.needs set
  | .group _ p => p.needs set
  | _ => false

/-- Whether the pattern can read nothing. -/
def nullable : Pattern → Bool
  | .literal t => t.isEmpty
  | .char _ => false
  | .seq p q => p.nullable && q.nullable
  | .alt p q => p.nullable || q.nullable
  | .group _ p => p.nullable
  | _ => true

/-- Whether a piece that the pattern reads can end in the character. -/
def endsWith (d : Char) : Pattern → Bool
  | .literal t => t.getLast? = some d
  | .char set => set d
  | .chars set _ => set d
  | .seq p q => q.endsWith d || (q.nullable && p.endsWith d)
  | .alt p q => p.endsWith d || q.endsWith d
  | .star p => p.endsWith d
  | .group _ p => p.endsWith d
  | .again _ => true
  | _ => false

/-- Whether a piece that the pattern reads can begin with the character. -/
def beginsWith (d : Char) : Pattern → Bool
  | .literal t => t.head? = some d
  | .char set => set d
  | .chars set _ => set d
  | .seq p q => p.beginsWith d || (p.nullable && q.beginsWith d)
  | .alt p q => p.beginsWith d || q.beginsWith d
  | .star p => p.beginsWith d
  | .group _ p => p.beginsWith d
  | .again _ => true
  | _ => false

/-- Whether reading stops at the end of the text only. -/
def anchored : Pattern → Bool
  | .seq _ q => q.anchored
  | .alt p q => p.anchored && q.anchored
  | .group _ p => p.anchored
  | .atEnd => true
  | _ => false

/-- The least number of characters read behind the piece remembered under a number, if the pattern
can remember one. -/
def room (k : Nat) : Pattern → Option Nat
  | .seq p q =>
    match p.room k, q.room k with
    | none, r => r
    | some n, none => some (n + q.minLength)
    | some n, some r => some (min (n + q.minLength) r)
  | .alt p q =>
    match p.room k, q.room k with
    | none, r => r
    | some n, none => some n
    | some n, some r => some (min n r)
  | .star p => (p.room k).map fun _ => 0
  | .group n p => if n = k then some 0 else p.room k
  | _ => none

/-- Whether the character can occur in the piece remembered under a number. -/
def inside (k : Nat) (d : Char) : Pattern → Bool
  | .seq p q => p.inside k d || q.inside k d
  | .alt p q => p.inside k d || q.inside k d
  | .star p => p.inside k d
  | .group n p => if n = k then p.uses d else p.inside k d
  | _ => false

/-- Whether the character can be read behind the piece remembered under a number. -/
def trailing (k : Nat) (d : Char) : Pattern → Bool
  | .seq p q => p.trailing k d || q.trailing k d || ((p.room k).isSome && q.uses d)
  | .alt p q => p.trailing k d || q.trailing k d
  | .star p => (p.room k).isSome
  | .group n p => n ≠ k && p.trailing k d
  | _ => false

/-- Whether the character can be read outside the piece remembered under a number. -/
def outside (k : Nat) (d : Char) : Pattern → Bool
  | .seq p q => p.outside k d || q.outside k d || ((p.room k).isSome && (q.room k).isSome)
  | .alt p q => p.outside k d || q.outside k d
  | .star p => p.outside k d || (p.room k).isSome
  | .group n p => n ≠ k && p.outside k d
  | p => p.uses d

/-- A pattern reads only characters that it uses. -/
theorem Reads.uses (h : Reads p s piece t) (hd : d ∈ piece) : p.uses d = true := by
  induction h with
  | literal _ text _ _ => simpa [Pattern.uses] using hd
  | char _ _ c _ _ hset =>
    obtain rfl : d = c := by simpa using hd
    exact hset
  | chars _ _ _ _ _ _ hall => exact hall d hd
  | seq _ _ ihp ihq =>
    rcases mem_append.mp hd with hd | hd
    · simp [Pattern.uses, ihp hd]
    · simp [Pattern.uses, ihq hd]
  | starCons _ _ _ ihp ihq =>
    rcases mem_append.mp hd with hd | hd
    · exact ihp hd
    · exact ihq hd
  | altLeft _ ih | altRight _ ih => simp [Pattern.uses, ih hd]
  | group _ _ ih => exact ih hd
  | again _ _ _ _ _ _ => rfl
  | _ => cases hd

theorem Reads.minLength_le (h : Reads p s piece t) : p.minLength ≤ piece.length := by
  induction h with
  | literal _ _ _ _ | char _ _ _ _ _ _ => exact Nat.le_refl _
  | seq _ _ ihp ihq =>
    simp only [Pattern.minLength, length_append]
    omega
  | altLeft _ ih | altRight _ ih =>
    simp only [Pattern.minLength]
    omega
  | group _ _ ih => exact ih
  | _ => exact Nat.zero_le _

theorem Reads.needs (h : Reads p s piece t)
    {set : Char → Bool} (hp : p.needs set = true) : ∃ c ∈ piece, set c = true := by
  induction h with
  | literal _ _ _ _ => simpa [Pattern.needs] using hp
  | seq _ _ ihp ihq =>
    rcases or_eq_true_iff.mp hp with hp | hp
    · obtain ⟨c, hc, hset⟩ := ihp hp
      exact ⟨c, mem_append_left _ hc, hset⟩
    · obtain ⟨c, hc, hset⟩ := ihq hp
      exact ⟨c, mem_append_right _ hc, hset⟩
  | altLeft _ ih => exact ih (and_eq_true_iff.mp hp).1
  | altRight _ ih => exact ih (and_eq_true_iff.mp hp).2
  | group _ _ ih => exact ih hp
  | _ => cases hp

section

variable (h : Reads p s piece t)

include h

theorem Reads.nullable (hnil : piece = []) : p.nullable = true := by
  induction h with
  | literal _ text _ _ => simp [Pattern.nullable, hnil]
  | char => cases hnil
  | seq _ _ ihp ihq =>
    obtain ⟨ha, hb⟩ := append_eq_nil_iff.mp hnil
    simp [Pattern.nullable, ihp ha, ihq hb]
  | altLeft _ ih | altRight _ ih => simp [Pattern.nullable, ih hnil]
  | group _ _ ih => exact ih hnil
  | _ => rfl

theorem Reads.ne_nil (hnull : p.nullable = false) : piece ≠ [] := by
  intro hnil
  rw [h.nullable hnil] at hnull
  cases hnull

/-- A reading ends in a character that the pattern may end with. -/
theorem Reads.endsWith (hd : piece.getLast? = some d) : p.endsWith d = true := by
  induction h with
  | literal _ _ _ _ => simpa [Pattern.endsWith] using hd
  | char _ _ c _ _ hset =>
    obtain rfl : c = d := by simpa using hd
    exact hset
  | chars _ _ _ _ _ _ hall => exact hall d (mem_of_getLast? hd)
  | @seq p q s a u b t hp hq ihp ihq =>
    cases b with
    | nil =>
      rw [append_nil] at hd
      simp [Pattern.endsWith, hq.nullable rfl, ihp hd]
    | cons c b =>
      rw [getLast?_append_of_ne_nil _ (cons_ne_nil c b)] at hd
      simp [Pattern.endsWith, ihq hd]
  | @starCons p s a u b t hp hne hq ihp ihq =>
    cases b with
    | nil =>
      rw [append_nil] at hd
      exact ihp hd
    | cons c b =>
      rw [getLast?_append_of_ne_nil _ (cons_ne_nil c b)] at hd
      exact ihq hd
  | altLeft _ ih | altRight _ ih => simp [Pattern.endsWith, ih hd]
  | group _ _ ih => exact ih hd
  | again _ _ _ _ _ _ => rfl
  | _ => cases hd

theorem Reads.beginsWith (hd : piece.head? = some d) : p.beginsWith d = true := by
  induction h with
  | literal _ _ _ _ => simpa [Pattern.beginsWith] using hd
  | char _ _ c _ _ hset =>
    obtain rfl : c = d := by simpa using hd
    exact hset
  | chars _ _ _ _ _ _ hall => exact hall d (mem_of_mem_head? hd)
  | @seq p q s a u b t hp hq ihp ihq =>
    cases a with
    | nil => simp [Pattern.beginsWith, hp.nullable rfl, ihq hd]
    | cons c a => simp [Pattern.beginsWith, ihp hd]
  | starCons _ hne _ ihp _ =>
    rw [head?_append_of_ne_nil _ hne] at hd
    exact ihp hd
  | altLeft _ ih | altRight _ ih => simp [Pattern.beginsWith, ih hd]
  | group _ _ ih => exact ih hd
  | again _ _ _ _ _ _ => rfl
  | _ => cases hd

theorem Reads.isEnd (hp : p.anchored = true) : t.isEnd = true := by
  induction h with
  | seq _ _ _ ihq => exact ihq hp
  | altLeft _ ih => exact ih (and_eq_true_iff.mp hp).1
  | altRight _ ih => exact ih (and_eq_true_iff.mp hp).2
  | group _ _ ih => exact ih hp
  | atEnd _ hend => exact hend
  | _ => cases hp

end

/-- What the pattern says about a piece remembered under a number, given what is read after it. -/
structure Framed (p : Pattern) (k : Nat) (inner after : Text) : Prop where
  room : ∃ n, p.room k = some n ∧ n ≤ after.length
  inside : ∀ d ∈ inner, p.inside k d = true
  trailing : ∀ d ∈ after, p.trailing k d = true

/-- The piece remembered under a number was read between two others. -/
def Remembered (p : Pattern) (k : Nat) (s : State) (piece : Text) (t : State) : Prop :=
  ∃ before inner after tail, piece = before ++ (inner ++ after) ∧ p.Framed k inner after ∧
    t.captures.lookup k = some ⟨s.index + before.length, inner ++ tail, inner.length⟩

theorem Framed.extend {b : Text} (h : p.Framed k inner after)
    (hb : q.minLength ≤ b.length) (huses : ∀ d ∈ b, q.uses d = true) :
    (Pattern.seq p q).Framed k inner (after ++ b) := by
  obtain ⟨n, hn, hle⟩ := h.room
  refine ⟨?_, fun d hd => by simp [Pattern.inside, h.inside d hd], fun d hd => ?_⟩
  · simp only [Pattern.room, hn, length_append]
    cases q.room k with
    | none | some r => exact ⟨_, rfl, by omega⟩
  · rcases mem_append.mp hd with hafter | hmem
    · simp [Pattern.trailing, h.trailing d hafter]
    · simp [Pattern.trailing, hn, huses d hmem]

theorem Framed.precede (h : q.Framed k inner after) : (Pattern.seq p q).Framed k inner after := by
  obtain ⟨r, hr, hle⟩ := h.room
  refine ⟨?_, fun d hd => by simp [Pattern.inside, h.inside d hd],
    fun d hd => by simp [Pattern.trailing, h.trailing d hd]⟩
  simp only [Pattern.room, hr]
  cases p.room k with
  | none | some n => exact ⟨_, rfl, by omega⟩

theorem Framed.alt (h : p.Framed k inner after ∨ q.Framed k inner after) :
    (Pattern.alt p q).Framed k inner after := by
  rcases h with h | h
  all_goals
    obtain ⟨r, hr, hle⟩ := h.room
    refine ⟨?_, fun d hd => by simp [Pattern.inside, h.inside d hd],
      fun d hd => by simp [Pattern.trailing, h.trailing d hd]⟩
    simp only [Pattern.room, hr]
  · cases q.room k with
    | none | some n => exact ⟨_, rfl, by omega⟩
  · cases p.room k with
    | none | some n => exact ⟨_, rfl, by omega⟩

theorem Framed.star (h : p.Framed k inner after) (after' : Text) :
    (Pattern.star p).Framed k inner after' := by
  obtain ⟨r, hr, -⟩ := h.room
  exact ⟨⟨0, by simp [Pattern.room, hr], Nat.zero_le _⟩, h.inside,
    fun d _ => by simp [Pattern.trailing, hr]⟩

/-- Reading keeps what is remembered under a number or remembers a piece of what it reads. -/
theorem Reads.remembered (h : Reads p s piece t)
    (k : Nat) : t.captures.lookup k = s.captures.lookup k ∨ p.Remembered k s piece t := by
  induction h with
  | @seq p q s a u b t hp hq ihp ihq =>
    rcases ihq with hkeep | ⟨before, inner, after, tail, rfl, hframe, hlookup⟩
    · rw [hkeep]
      refine ihp.imp_right ?_
      rintro ⟨before, inner, after, tail, rfl, hframe, hlookup⟩
      exact ⟨before, inner, after ++ b, tail, by simp,
        hframe.extend hq.minLength_le fun _ => hq.uses, hkeep.trans hlookup⟩
    · refine .inr ⟨a ++ before, inner, after, tail, by simp, hframe.precede, ?_⟩
      rw [hlookup, hp.index_eq, length_append, Nat.add_assoc]
  | @starCons p s a u b t hp _ hq ihp ihq =>
    rcases ihq with hkeep | ⟨before, inner, after, tail, rfl, hframe, hlookup⟩
    · rw [hkeep]
      refine ihp.imp_right ?_
      rintro ⟨before, inner, after, tail, rfl, hframe, hlookup⟩
      exact ⟨before, inner, after ++ b, tail, by simp, hframe.star _, hkeep.trans hlookup⟩
    · refine .inr ⟨a ++ before, inner, after, tail, by simp, hframe, ?_⟩
      rw [hlookup, hp.index_eq, length_append, Nat.add_assoc]
  | altLeft _ ih | altRight _ ih =>
    refine ih.imp_right ?_
    rintro ⟨before, inner, after, tail, hpiece, hframe, hlookup⟩
    exact ⟨before, inner, after, tail, hpiece, .alt (by simp [hframe]), hlookup⟩
  | @group p s a t n hp ih =>
    by_cases hn : n = k
    · subst hn
      refine .inr ⟨[], a, [], t.ahead, by simp,
        ⟨⟨0, by simp [Pattern.room], Nat.zero_le _⟩, ?_, nofun⟩, ?_⟩
      · intro d hd
        simpa [Pattern.inside] using hp.uses hd
      · simp [State.remember, hp.ahead_eq, hp.index_eq]
    · have hlookup : (t.remember n s).captures.lookup k = t.captures.lookup k := by
        have hne : (k == n) = false := by simpa using fun h => hn h.symm
        simp [State.remember, lookup_cons, hne]
      rw [hlookup]
      refine ih.imp_right ?_
      rintro ⟨before, inner, after, tail, hpiece, hframe, hinner⟩
      obtain ⟨r, hr, hle⟩ := hframe.room
      refine ⟨before, inner, after, tail, hpiece,
        ⟨⟨r, by simp [Pattern.room, hn, hr], hle⟩, ?_, ?_⟩, hlookup.trans hinner⟩
      · intro d hd
        simpa [Pattern.inside, hn] using hframe.inside d hd
      · intro d hd
        simpa [Pattern.trailing, hn] using hframe.trailing d hd
  | _ => exact .inl rfl

/-- A character that is read only in the piece remembered under a number is in that piece. -/
theorem isSome_room (h : (p.room k).isSome = true ∨ (q.room k).isSome = true) :
    ((Pattern.seq p q).room k).isSome = true ∧ ((Pattern.alt p q).room k).isSome = true := by
  cases hp : p.room k <;> cases hq : q.room k <;> simp_all [Pattern.room]

/-- A character that is read in the group only is remembered by it. -/
theorem Reads.mem_remembered (h : Reads p s piece t) (hd : d ∈ piece)
    (hout : p.outside k d = false) :
    (p.room k).isSome = true ∧ ∃ capture, t.captures.lookup k = some capture ∧
    d ∈ capture.text := by
  induction h with
  | @seq p q s a u b t hp hq ihp ihq =>
    simp only [Pattern.outside, or_eq_false_iff] at hout
    rcases mem_append.mp hd with hd | hd
    · obtain ⟨hroom, capture, hlookup, hmem⟩ := ihp hd hout.1.1
      obtain ⟨n, hn⟩ := Option.isSome_iff_exists.mp hroom
      rcases hq.remembered k with hkeep | ⟨_, _, _, _, _, hframe, _⟩
      · exact ⟨(isSome_room (.inl hroom)).1, capture, hkeep.trans hlookup, hmem⟩
      · obtain ⟨r, hr, -⟩ := hframe.room
        simp [hn, hr] at hout
    · exact (ihq hd hout.1.2).imp_left fun hroom => (isSome_room (.inr hroom)).1
  | @starCons p s a u b t hp _ hq ihp ihq =>
    rcases mem_append.mp hd with hd | hd
    · obtain ⟨hroom, -⟩ := ihp hd (or_eq_false_iff.mp hout).1
      simp [Pattern.outside, hroom] at hout
    · obtain ⟨hroom, -⟩ := ihq hd hout
      simp [Pattern.outside, Pattern.room] at hout hroom
      simp [hout] at hroom
  | altLeft _ ih =>
    exact (ih hd (or_eq_false_iff.mp hout).1).imp_left fun hroom => (isSome_room (.inl hroom)).2
  | altRight _ ih =>
    exact (ih hd (or_eq_false_iff.mp hout).2).imp_left fun hroom => (isSome_room (.inr hroom)).2
  | @group p s a t n hp ih =>
    by_cases hn : n = k
    · subst hn
      refine ⟨by simp [Pattern.room], ⟨s.index, s.ahead, t.index - s.index⟩,
        by simp [State.remember], ?_⟩
      rw [Capture.text, hp.index_eq, hp.ahead_eq, Nat.add_sub_cancel_left, take_left]
      exact hd
    · have hinner : p.outside k d = false := by simpa [Pattern.outside, hn] using hout
      obtain ⟨hroom, capture, hlookup, hmem⟩ := ih hd hinner
      have hne : (k == n) = false := by simpa using fun h => hn h.symm
      refine ⟨by simpa [Pattern.room, hn] using hroom, capture, ?_, hmem⟩
      simpa [State.remember, lookup_cons, hne] using hlookup
  | literal s text rest hs => exact absurd hd (by simpa [Pattern.outside, Pattern.uses] using hout)
  | char s set c rest hs hset =>
    obtain rfl := mem_singleton.mp hd
    exact absurd hset (eq_false_iff.mp hout)
  | chars s set greedy run rest hs hall => exact absurd (hall d hd) (eq_false_iff.mp hout)
  | again s n capture rest hlookup hs => cases hout
  | _ => cases hd

end Pattern

end CodeConverter
