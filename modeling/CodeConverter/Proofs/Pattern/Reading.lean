import CodeConverter.Pattern.Vocabulary

/-!
# What a pattern reads

`Reads p s piece t` says that the pattern `p`, started at the place `s`, reads the text `piece` and
stops at the place `t`. It has one rule for each form of pattern, so that facts about matches are
proved by induction on it. `mem_outcomes_iff` says that the outcomes of matching are exactly the
places reached by reading.
-/

namespace CodeConverter

open List Pattern.State

namespace Pattern

/-- The place after a piece of text, where `rest` follows. -/
def State.past (s : State) (piece rest : Text) : State :=
  { s with
    before := piece.getLast?.or s.before
    ahead := rest
    index := s.index + piece.length }

/-- The pattern reads the piece from the first place to the second. -/
inductive Reads : Pattern → State → Text → State → Prop
  | empty (s) : Reads .empty s [] s
  | literal (s t rest) : s.ahead = t ++ rest → Reads (.literal t) s t (s.past t rest)
  | char (s set c rest) :
      s.ahead = c :: rest → set c = true → Reads (.char set) s [c] (s.past [c] rest)
  | chars (s set greedy run rest) :
      s.ahead = run ++ rest → (∀ c ∈ run, set c = true) →
      Reads (.chars set greedy) s run (s.past run rest)
  | seq {p q s a u b t} : Reads p s a u → Reads q u b t → Reads (.seq p q) s (a ++ b) t
  | altLeft {p q s a t} : Reads p s a t → Reads (.alt p q) s a t
  | altRight {p q s a t} : Reads q s a t → Reads (.alt p q) s a t
  | starNil (p s) : Reads (.star p) s [] s
  | starCons {p s a u b t} :
      Reads p s a u → a ≠ [] → Reads (.star p) u b t → Reads (.star p) s (a ++ b) t
  | group {p s a t} (n) : Reads p s a t → Reads (.group n p) s a (t.remember n s)
  | again (s n capture rest) :
      s.captures.lookup n = some capture → s.ahead = capture.text ++ rest →
      Reads (.again n) s capture.text (s.past capture.text rest)
  | ahead (p s) : p.outcomes s ≠ [] → Reads (.ahead p) s [] s
  | notAhead (p s) : p.outcomes s = [] → Reads (.notAhead p) s [] s
  | behind (set s) : s.before.any set = true → Reads (.behind set) s [] s
  | notBehind (set s) : s.before.any set = false → Reads (.notBehind set) s [] s
  | atStart (s) : s.index = 0 → Reads .atStart s [] s
  | atEnd (s) : s.isEnd = true → Reads .atEnd s [] s
  | wordEdge (s) : s.isWordEdge = true → Reads .wordEdge s [] s

variable {s t u : State} {rest piece text : Text} {set : Char → Bool} {near : List State}
    {p q : Pattern} {n : Nat}

theorem State.advance_eq_past (s : State) (c : Char) (rest : Text) :
    s.advance c rest = s.past [c] rest := rfl

theorem State.past_past (s : State) (a b rest rest' : Text) :
    (s.past a rest).past b rest' = s.past (a ++ b) rest' := by
  simp only [past, mk.injEq, length_append, true_and, and_true]
  refine ⟨?_, by omega⟩
  cases hb : b.getLast? with
  | none =>
    have hnil : b = [] := getLast?_eq_none_iff.mp hb
    subst hnil
    simp
  | some c => simp [getLast?_append, hb]

theorem State.past_nil_of_ahead (h : s.ahead = rest) : s.past [] rest = s := by
  subst h
  rfl

theorem State.eat_eq_some {t : Text} (h : s.eat t = some u) : s.ahead = t ++ u.ahead ∧
    u = s.past t u.ahead := by
  induction t generalizing s with
  | nil =>
    cases h
    exact ⟨rfl, rfl⟩
  | cons c t ih =>
    simp only [eat] at h
    split at h
    · cases h
    · rename_i d rest hahead
      split at h
      · rename_i hcd
        subst hcd
        obtain ⟨hrest, hu⟩ := ih h
        have hrest' : rest = t ++ u.ahead := hrest
        refine ⟨by rw [hahead, hrest', cons_append], ?_⟩
        rw [hu, advance_eq_past, past_past]
        rfl
      · cases h

/-- A place reached over characters of a class lies behind a run of them. -/
theorem State.mem_stretch (h : t ∈ stretch set s.ahead s near) :
    t ∈ near ∨ ∃ run rest, s.ahead = run ++ rest ∧ (∀ c ∈ run, set c = true) ∧
    t = s.past run rest := by
  generalize hahead : s.ahead = text at h
  induction text generalizing s near with
  | nil =>
    simp only [stretch, mem_cons] at h
    rcases h with rfl | h
    · exact .inr ⟨[], [], rfl, by simp, (past_nil_of_ahead hahead).symm⟩
    · exact .inl h
  | cons c text ih =>
    have here : s ∈ s :: near → t = s →
        ∃ run rest, c :: text = run ++ rest ∧ (∀ d ∈ run, set d = true) ∧ t = s.past run rest := by
      rintro - rfl
      exact ⟨[], c :: text, rfl, by simp, (past_nil_of_ahead hahead).symm⟩
    simp only [stretch] at h
    split at h
    · rename_i hset
      rcases ih rfl h with hmem | ⟨run, rest, hrun, hall, rfl⟩
      · rcases mem_cons.mp hmem with rfl | hmem
        · exact .inr (here (by simp) rfl)
        · exact .inl hmem
      · refine .inr ⟨c :: run, rest, ?_, ?_, ?_⟩
        · rw [hrun, cons_append]
        · simpa [hset] using hall
        · rw [advance_eq_past, past_past]
          rfl
    · rcases mem_cons.mp h with rfl | hmem
      · exact .inr (here (by simp) rfl)
      · exact .inl hmem

theorem Reads.ahead_eq (h : Reads p s piece t) : s.ahead = piece ++ t.ahead := by
  induction h with
  | literal _ _ _ hahead | char _ _ _ _ hahead | chars _ _ _ _ _ hahead | again _ _ _ _ _ hahead =>
      exact hahead
  | seq _ _ ihp ihq | starCons _ _ _ ihp ihq => rw [ihp, ihq, append_assoc]
  | altLeft _ ih | altRight _ ih | group _ _ ih => exact ih
  | _ => rfl

theorem Reads.index_eq (h : Reads p s piece t) : t.index = s.index + piece.length := by
  induction h with
  | seq _ _ ihp ihq | starCons _ _ _ ihp ihq => rw [ihq, ihp, length_append, Nat.add_assoc]
  | altLeft _ ih | altRight _ ih | group _ _ ih => exact ih
  | _ => rfl

theorem Reads.before_eq (h : Reads p s piece t) : t.before = piece.getLast?.or s.before := by
  induction h with
  | seq _ _ ihp ihq | starCons _ _ _ ihp ihq => rw [ihq, ihp, getLast?_append, Option.or_assoc]
  | altLeft _ ih | altRight _ ih | group _ _ ih => exact ih
  | _ => rfl

theorem mem_test {q : Prop} [Decidable q] (h : t ∈ if q then [s] else []) : q ∧ t = s := by
  split at h
  · exact ⟨‹q›, mem_singleton.mp h⟩
  · cases h

/-- Every outcome of a repetition is one of its readings. -/
theorem reads_star_of_mem (hp : ∀ s t, t ∈ p.outcomes s → ∃ piece, Reads p s piece t)
    (fuel : Text) (h : t ∈ repeatOutcomes p.outcomes fuel s) :
    ∃ piece, Reads (.star p) s piece t := by
  induction fuel generalizing s with
  | nil =>
    obtain rfl : t = s := by simpa [repeatOutcomes] using h
    exact ⟨[], .starNil _ _⟩
  | cons _ fuel ih =>
    simp only [repeatOutcomes, mem_append, mem_flatMap, mem_singleton] at h
    rcases h with ⟨u, hu, ht⟩ | rfl
    · split at ht
      · rename_i hmoved
        obtain ⟨a, ha⟩ := hp s u hu
        obtain ⟨b, hb⟩ := ih ht
        refine ⟨a ++ b, .starCons ha ?_ hb⟩
        rintro rfl
        exact absurd ha.index_eq (by simp only [length_nil]; omega)
      · cases ht
    · exact ⟨[], .starNil _ _⟩

/-- Every outcome of matching is reached by reading some piece. -/
theorem reads_of_mem_outcomes (h : t ∈ p.outcomes s) : ∃ piece, Reads p s piece t := by
  induction p generalizing s t with
  | empty =>
    obtain rfl : t = s := by simpa [outcomes] using h
    exact ⟨[], .empty _⟩
  | literal text =>
    have heat : s.eat text = some t := by simpa [outcomes] using h
    obtain ⟨hahead, ht⟩ := eat_eq_some heat
    rw [ht]
    exact ⟨text, .literal _ _ _ hahead⟩
  | char set =>
    simp only [outcomes] at h
    split at h
    · cases h
    · rename_i c rest hahead
      split at h
      · rename_i hset
        obtain rfl : t = s.advance c rest := by simpa using h
        exact ⟨[c], .char _ _ _ _ hahead hset⟩
      · cases h
  | chars set greedy =>
    have hmem : t ∈ stretch set s.ahead s [] := by
      cases greedy <;> simpa [outcomes] using h
    rcases mem_stretch hmem with hnil | ⟨run, rest, hahead, hall, rfl⟩
    · cases hnil
    · exact ⟨run, .chars _ _ _ _ _ hahead hall⟩
  | seq p q ihp ihq =>
    obtain ⟨u, hu, ht⟩ := mem_flatMap.mp (by simpa only [outcomes] using h)
    obtain ⟨a, ha⟩ := ihp hu
    obtain ⟨b, hb⟩ := ihq ht
    exact ⟨a ++ b, .seq ha hb⟩
  | alt p q ihp ihq =>
    rcases mem_append.mp (by simpa only [outcomes] using h) with h | h
    · obtain ⟨a, ha⟩ := ihp h
      exact ⟨a, .altLeft ha⟩
    · obtain ⟨a, ha⟩ := ihq h
      exact ⟨a, .altRight ha⟩
  | star p ih => exact reads_star_of_mem (fun _ _ hu => ih hu) _ h
  | group n p ih =>
    obtain ⟨u, hu, rfl⟩ := mem_map.mp (by simpa only [outcomes] using h)
    obtain ⟨a, ha⟩ := ih hu
    exact ⟨a, .group n ha⟩
  | again n =>
    simp only [outcomes] at h
    split at h
    · cases h
    · rename_i capture hlookup
      have heat : s.eat capture.text = some t := by simpa using h
      obtain ⟨hahead, ht⟩ := eat_eq_some heat
      rw [ht]
      exact ⟨capture.text, .again _ _ _ _ hlookup hahead⟩
  | ahead p _ =>
    simp only [outcomes] at h
    split at h
    · cases h
    · rename_i hfound
      obtain rfl : t = s := by simpa using h
      exact ⟨[], .ahead _ _ (by simpa using hfound)⟩
  | notAhead p _ =>
    obtain ⟨hnone, rfl⟩ := mem_test h
    exact ⟨[], .notAhead _ _ (by simpa using hnone)⟩
  | behind set =>
    obtain ⟨hbefore, rfl⟩ := mem_test h
    exact ⟨[], .behind _ _ hbefore⟩
  | notBehind set =>
    simp only [outcomes] at h
    split at h
    · cases h
    · rename_i hbefore
      obtain rfl : t = s := by simpa using h
      exact ⟨[], .notBehind _ _ (by simpa using hbefore)⟩
  | atStart =>
    obtain ⟨hindex, rfl⟩ := mem_test h
    exact ⟨[], .atStart _ hindex⟩
  | atEnd =>
    obtain ⟨hend, rfl⟩ := mem_test h
    exact ⟨[], .atEnd _ hend⟩
  | wordEdge =>
    obtain ⟨hedge, rfl⟩ := mem_test h
    exact ⟨[], .wordEdge _ hedge⟩

theorem State.eat_of_ahead {t : Text} (h : s.ahead = t ++ rest) :
    s.eat t = some (s.past t rest) := by
  induction t generalizing s with
  | nil => exact congrArg some (past_nil_of_ahead h).symm
  | cons c t ih =>
    simp only [cons_append] at h
    simp only [eat, h, if_true]
    rw [ih rfl, advance_eq_past, past_past]
    rfl

theorem State.mem_stretch_of_near (h : u ∈ near) : u ∈ stretch set text s near := by
  induction text generalizing s near with
  | nil => exact mem_cons_of_mem _ h
  | cons c text ih =>
    simp only [stretch]
    split
    · exact ih (mem_cons_of_mem _ h)
    · exact mem_cons_of_mem _ h

theorem State.past_mem_stretch {run : Text} (h : s.ahead = run ++ rest)
    (hall : ∀ c ∈ run, set c = true) : s.past run rest ∈ stretch set s.ahead s near := by
  induction run generalizing s near with
  | nil =>
    rw [past_nil_of_ahead (by simpa using h)]
    cases s.ahead with
    | nil => exact mem_cons_self
    | cons c text =>
      simp only [stretch]
      split
      · exact mem_stretch_of_near mem_cons_self
      · exact mem_cons_self
  | cons c run ih =>
    have hset : set c = true := hall c mem_cons_self
    have hrun := @ih (s.advance c (run ++ rest)) (s :: near) rfl
      fun d hd => hall d (mem_cons_of_mem _ hd)
    rw [advance_eq_past, past_past] at hrun
    rw [h]
    simp only [cons_append, stretch, hset, if_true]
    exact hrun

theorem repeatOutcomes_mono {step : State → List State} {fuel fuel' : Text}
    (h : t ∈ repeatOutcomes step fuel s) (hle : fuel.length ≤ fuel'.length) :
    t ∈ repeatOutcomes step fuel' s := by
  induction fuel generalizing fuel' s with
  | nil =>
    obtain rfl : t = s := by simpa [repeatOutcomes] using h
    cases fuel' <;> simp [repeatOutcomes]
  | cons _ fuel ih =>
    cases fuel' with
    | nil => simp at hle
    | cons _ fuel' =>
      simp only [repeatOutcomes, mem_append, mem_flatMap, mem_singleton] at h ⊢
      rcases h with ⟨u, hu, ht⟩ | rfl
      · refine .inl ⟨u, hu, ?_⟩
        by_cases hmoved : s.index < u.index
        · rw [if_pos hmoved] at ht ⊢
          exact ih ht (by simpa using hle)
        · rw [if_neg hmoved] at ht
          cases ht
      · exact .inr rfl

/-- Every place reached by reading is an outcome of matching. -/
theorem Reads.mem_outcomes (h : Reads p s piece t) : t ∈ p.outcomes s := by
  induction h with
  | empty s => simp [outcomes]
  | literal s t rest hahead => simp [outcomes, eat_of_ahead hahead]
  | char s set c rest hahead hset => simp [outcomes, hahead, hset, advance_eq_past]
  | chars s set greedy run rest hahead hall =>
    have hmem := @past_mem_stretch _ _ _ [] _ hahead hall
    cases greedy <;> simpa [outcomes] using hmem
  | seq _ _ ihp ihq => exact mem_flatMap.mpr ⟨_, ihp, ihq⟩
  | altLeft _ ih => exact mem_append_left _ ih
  | altRight _ ih => exact mem_append_right _ ih
  | starNil p s =>
    simp only [outcomes]
    cases s.ahead <;> simp [repeatOutcomes]
  | @starCons p s a u b t hp hne hq ihp ihq =>
    -- The first round reads something, so the rest of the text is enough fuel for the others.
    have hlength := congrArg length hp.ahead_eq
    have hpos := length_pos_iff.mpr hne
    have hindex := hp.index_eq
    simp only [outcomes] at ihq ⊢
    cases hahead : s.ahead with
    | nil =>
      simp only [hahead, length_nil, length_append] at hlength
      omega
    | cons c rest =>
      simp only [hahead, length_cons, length_append] at hlength
      simp only [repeatOutcomes, mem_append, mem_flatMap]
      refine .inl ⟨u, ihp, ?_⟩
      rw [if_pos (by omega)]
      exact repeatOutcomes_mono ihq (by omega)
  | group n _ ih => exact mem_map.mpr ⟨_, ih, rfl⟩
  | again s n capture rest hlookup hahead => simp [outcomes, hlookup, eat_of_ahead hahead]
  | ahead p s hfound => simp [outcomes, hfound]
  | notAhead p s hnone => simp [outcomes, hnone]
  | behind set s hbefore | notBehind set s hbefore => simp [outcomes, hbefore]
  | atStart s hindex => simp [outcomes, hindex]
  | atEnd s hend => simp [outcomes, hend]
  | wordEdge s hedge => simp [outcomes, hedge]

theorem append_eq_seq (p q : Pattern) : p ++ q = .seq p q := rfl

theorem reads_seq_iff : Reads (.seq p q) s piece t ↔ ∃ a u b, piece = a ++ b ∧ Reads p s a u ∧
    Reads q u b t := by
  constructor
  · rintro ⟨⟩
    exact ⟨_, _, _, rfl, ‹_›, ‹_›⟩
  · rintro ⟨a, u, b, rfl, hp, hq⟩
    exact .seq hp hq

theorem reads_alt_iff : Reads (.alt p q) s piece t ↔ Reads p s piece t ∨ Reads q s piece t := by
  constructor
  · rintro ⟨⟩
    · exact .inl ‹_›
    · exact .inr ‹_›
  · rintro (h | h)
    · exact .altLeft h
    · exact .altRight h

theorem reads_empty_iff : Reads .empty s piece t ↔ piece = [] ∧ t = s := by
  constructor
  · rintro ⟨⟩
    exact ⟨rfl, rfl⟩
  · rintro ⟨rfl, rfl⟩
    exact .empty _

theorem reads_literal_iff : Reads (.literal text) s piece t ↔
      piece = text ∧ ∃ rest, s.ahead = text ++ rest ∧ t = s.past text rest := by
  constructor
  · rintro ⟨⟩
    exact ⟨rfl, _, ‹_›, rfl⟩
  · rintro ⟨rfl, rest, hahead, rfl⟩
    exact .literal _ _ _ hahead

theorem reads_char_iff : Reads (.char set) s piece t ↔
      ∃ c rest, piece = [c] ∧ set c = true ∧ s.ahead = c :: rest ∧ t = s.past [c] rest := by
  constructor
  · rintro ⟨⟩
    exact ⟨_, _, rfl, ‹_›, ‹_›, rfl⟩
  · rintro ⟨c, rest, rfl, hset, hahead, rfl⟩
    exact .char _ _ _ _ hahead hset

theorem reads_chars_iff {greedy : Bool} : Reads (.chars set greedy) s piece t ↔
      (∀ c ∈ piece, set c = true) ∧ ∃ rest, s.ahead = piece ++ rest ∧ t = s.past piece rest := by
  constructor
  · rintro ⟨⟩
    exact ⟨‹_›, _, ‹_›, rfl⟩
  · rintro ⟨hall, rest, hahead, rfl⟩
    exact .chars _ _ _ _ _ hahead hall

theorem reads_group_iff : Reads (.group n p) s piece t ↔ ∃ u, Reads p s piece u ∧
    t = u.remember n s := by
  constructor
  · rintro ⟨⟩
    exact ⟨_, ‹_›, rfl⟩
  · rintro ⟨u, hp, rfl⟩
    exact .group n hp

theorem reads_again_iff : Reads (.again n) s piece t ↔ ∃ capture rest,
    s.captures.lookup n = some capture ∧
      piece = capture.text ∧ s.ahead = capture.text ++ rest ∧ t = s.past capture.text rest := by
  constructor
  · rintro ⟨⟩
    exact ⟨_, _, ‹_›, rfl, ‹_›, rfl⟩
  · rintro ⟨capture, rest, hlookup, rfl, hahead, rfl⟩
    exact .again _ _ _ _ hlookup hahead

theorem reads_atEnd_iff : Reads .atEnd s piece t ↔ piece = [] ∧ t = s ∧ s.isEnd = true := by
  constructor
  · rintro ⟨⟩
    exact ⟨rfl, rfl, ‹_›⟩
  · rintro ⟨rfl, rfl, hend⟩
    exact .atEnd _ hend

theorem reads_atStart_iff : Reads .atStart s piece t ↔ piece = [] ∧ t = s ∧ s.index = 0 := by
  constructor
  · rintro ⟨⟩
    exact ⟨rfl, rfl, ‹_›⟩
  · rintro ⟨rfl, rfl, hindex⟩
    exact .atStart _ hindex

theorem reads_wordEdge_iff : Reads .wordEdge s piece t ↔ piece = [] ∧ t = s ∧
    s.isWordEdge = true := by
  constructor
  · rintro ⟨⟩
    exact ⟨rfl, rfl, ‹_›⟩
  · rintro ⟨rfl, rfl, hedge⟩
    exact .wordEdge _ hedge

end Pattern

end CodeConverter
