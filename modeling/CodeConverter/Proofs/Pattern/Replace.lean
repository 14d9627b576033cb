import Mathlib.Algebra.Order.BigOperators.Group.List
import Mathlib.Algebra.Order.Group.Nat
import CodeConverter.Proofs.Pattern.Found
import CodeConverter.Proofs.Text.Part

/-!
# What replacing keeps

Replacing a fixed piece is replacing the matches of a literal pattern, so one set of lemmas serves
both. Three relations between a text and the text with its matches replaced come up again and
again: no new characters but those of a class, no more characters of a class, and the same
characters of a class in the same order. A relation that depends on what stands around a match is
carried on from left to right (`CarriedOn`).
-/

namespace CodeConverter

open List

variable {c d : Char} {rest t text subject old new : Text} {s : State} {a b : Text}

namespace Text

theorem splitAtPiece_eq_drop (c : Char) (rest : Text) (n : Nat) (t : Text) :
    splitAtPiece c rest n t = splitAtPiece c rest 0 (t.drop n) := by
  induction t generalizing n with
  | nil => cases n <;> simp [splitAtPiece]
  | cons d t ih =>
    cases n with
    | zero => rfl
    | succ n => simpa [splitAtPiece] using ih n

theorem splitAtPiece_ne_nil (c : Char) (rest : Text) (n : Nat) (t : Text) :
    splitAtPiece c rest n t ≠ [] := by
  induction t generalizing n with
  | nil => simp [splitAtPiece]
  | cons d t ih =>
    cases n with
    | zero =>
      simp only [splitAtPiece]
      split
      · simp
      · split <;> simp
    | succ n => simpa [splitAtPiece] using ih n

theorem join_splitAtPiece_of_isPrefix {tail : Text} (new : Text) (h : t = c :: rest ++ tail) :
    join new (splitAtPiece c rest 0 t) = new ++ join new (splitAtPiece c rest 0 tail) := by
  subst h
  have hstart : (c :: rest).isPrefixOf (c :: (rest ++ tail)) = true :=
    isPrefixOf_iff_prefix.mpr ⟨tail, rfl⟩
  simp only [cons_append, splitAtPiece]
  rw [if_pos hstart, splitAtPiece_eq_drop, drop_left]
  cases hs : splitAtPiece c rest 0 tail with
  | nil => exact absurd hs (splitAtPiece_ne_nil c rest 0 tail)
  | cons piece pieces => simp [join, intercalate]

theorem join_splitAtPiece_of_not_isPrefix (new : Text) (h : ¬ c :: rest <+: d :: t) :
    join new (splitAtPiece c rest 0 (d :: t)) = d :: join new (splitAtPiece c rest 0 t) := by
  simp only [splitAtPiece]
  rw [if_neg (mt isPrefixOf_iff_prefix.mp h)]
  cases hs : splitAtPiece c rest 0 t with
  | nil => exact absurd hs (splitAtPiece_ne_nil c rest 0 t)
  | cons piece pieces => cases pieces <;> simp [join, intercalate]

end Text

namespace Pattern

theorem matchAt_literal_of_ahead (h : s.ahead = text ++ rest) :
    (Pattern.literal text).matchAt subject s =
      some ⟨subject, s, { s with captures := [] : State }.past text rest⟩ := by
  rw [matchAt_eq]
  simp only [outcomes]
  rw [State.eat_of_ahead (s := { s with captures := [] }) h]
  rfl

theorem matchAt_literal_of_not_isPrefix (h : ¬ text <+: s.ahead) :
    (Pattern.literal text).matchAt subject s = none := by
  refine matchAt_eq_none fun piece u hreads => ?_
  obtain ⟨-, rest, hahead, -⟩ := reads_literal_iff.mp hreads
  exact h ⟨rest, hahead.symm⟩

/-- Replacing the matches of a literal from a place on is replacing its occurrences. -/
theorem flatMap_segmentsFrom_literal (c : Char) (rest new subject fuel : Text) (s : State)
    (hfuel : s.ahead.length ≤ fuel.length) :
    ((Pattern.literal (c :: rest)).segmentsFrom subject fuel s).flatMap
        (fun | .plain d => [d] | .found _ => new) =
        Text.join new (Text.splitAtPiece c rest 0 s.ahead) := by
  induction fuel generalizing s with
  | nil =>
    have hnil : s.ahead = [] := length_eq_zero_iff.mp (by simpa using hfuel)
    rw [segmentsFrom_at_end (matchAt_literal_of_not_isPrefix (by simp [hnil])) hnil, hnil]
    simp [Text.splitAtPiece, Text.join]
  | cons _ fuel ih =>
    by_cases hpre : c :: rest <+: s.ahead
    · obtain ⟨tail, htail⟩ := hpre
      have hlength := congrArg length htail
      simp only [length_append, length_cons] at hlength hfuel
      rw [segmentsFrom_of_match (matchAt_literal_of_ahead htail.symm) (by simp [State.past]),
        flatMap_cons, ih _ (by simp only [State.past]; omega)]
      exact (Text.join_splitAtPiece_of_isPrefix new htail.symm).symm
    · have hnone : (Pattern.literal (c :: rest)).matchAt subject s = none :=
        matchAt_literal_of_not_isPrefix hpre
      cases hahead : s.ahead with
      | nil =>
        rw [segmentsFrom_at_end hnone hahead]
        simp [Text.splitAtPiece, Text.join]
      | cons d t =>
        rw [hahead] at hpre hfuel
        rw [segmentsFrom_of_none hnone hahead, flatMap_cons,
          ih _ (by simpa [State.advance] using hfuel),
          Text.join_splitAtPiece_of_not_isPrefix new hpre]
        rfl

theorem replace_eq_replaceWith (h : old ≠ []) (new t : Text) :
    Text.replace old new t = (Pattern.literal old).replaceWith new t := by
  cases old with
  | nil => exact absurd rfl h
  | cons c rest =>
    exact (flatMap_segmentsFrom_literal c rest new t t (.start t) (Nat.le_refl _)).symm

/-- Replacing a piece keeps a compatible relation that holds for characters of the text and between
the piece and its replacement. -/
theorem replace_rel {R : Text → Text → Prop} (hR : Compatible R)
    (hold : old ≠ []) (hplain : ∀ c ∈ t, R [c] [c]) (hnew : R new old) :
    R (Text.replace old new t) t := by
  rw [replace_eq_replaceWith hold]
  refine replaceBy_rel hR hplain fun m hm => ?_
  rw [(reads_literal_iff.mp hm.reads).1]
  exact hnew

theorem compatible_eq : Compatible (Eq : Text → Text → Prop) where
  nil := rfl
  append := fun hab hcd => by rw [hab, hcd]

theorem replaceBy_eq_self {p : Pattern} {f : Match → Text} {set : Char → Bool}
    (hneeds : p.needs set = true) (ht : ∀ c ∈ t, set c = false) : p.replaceBy f t = t := by
  refine replaceBy_rel compatible_eq (fun _ _ => rfl) fun m hm => ?_
  obtain ⟨c, hc, hset⟩ := hm.reads.needs hneeds
  rw [ht c (hm.whole_isInfix.subset hc)] at hset
  cases hset

theorem replace_eq_self (hold : d ∈ old) (ht : d ∉ t) : Text.replace old new t = t := by
  have hne : old ≠ [] := ne_nil_of_mem hold
  have hneeds : (Pattern.literal old).needs (fun c => c = d) = true :=
    any_eq_true.mpr ⟨d, hold, by simp⟩
  rw [replace_eq_replaceWith hne]
  refine replaceBy_eq_self hneeds fun c hc => ?_
  rw [decide_eq_false_iff_not]
  rintro rfl
  exact ht hc

theorem compatible_countP_le (set : Char → Bool) :
    Compatible fun out t => out.countP set ≤ t.countP set where
  nil := Nat.le_refl _
  append := by
    intro a b c d hab hcd
    rw [countP_append, countP_append]
    omega

theorem compatible_filter_eq (set : Char → Bool) :
    Compatible fun out t => out.filter set = t.filter set where
  nil := rfl
  append := by
    intro a b c d hab hcd
    rw [filter_append, filter_append, hab, hcd]

end Pattern

open Pattern Text

/-- Every character of the first text stands in the second one or belongs to the class. -/
def AddsOnly (new : Char → Bool) (out t : Text) : Prop :=
  ∀ c ∈ out, c ∈ t ∨ new c = true

variable {new : Char → Bool} {out mid t u : Text} {p : Pattern}

namespace AddsOnly

theorem of_subset (h : out ⊆ t) : AddsOnly new out t := fun _ hc => .inl (h hc)

theorem rfl : AddsOnly new t t := of_subset (Subset.refl t)

theorem fixed (h : out.all new = true) : AddsOnly new out t := fun c hc =>
  .inr (all_eq_true.mp h c hc)

theorem trans (h : AddsOnly new out mid) (h' : AddsOnly new mid t) : AddsOnly new out t := by
  intro c hc
  rcases h c hc with hmid | hnew
  · exact h' c hmid
  · exact .inr hnew

theorem append (h : AddsOnly new out t) (h' : AddsOnly new u t) : AddsOnly new (out ++ u) t :=
  forall_mem_append.mpr ⟨h, h'⟩

theorem enclose (h : AddsOnly new out t) (ha : a.all new = true) (hb : b.all new = true) :
    AddsOnly new (a ++ out ++ b) t :=
  ((fixed ha).append h).append (fixed hb)

theorem forall_mem {p : Char → Prop} (h : AddsOnly new out t) (ht : ∀ c ∈ t, p c)
    (hnew : ∀ c, new c = true → p c) : ∀ c ∈ out, p c := by
  intro c hc
  rcases h c hc with hin | hadded
  · exact ht c hin
  · exact hnew c hadded

theorem join {sep : Text} {pieces : List Text} (hsep : sep.all new = true)
    (hpieces : ∀ piece ∈ pieces, AddsOnly new piece t) : AddsOnly new (Text.join sep pieces) t := by
  intro c hc
  rcases mem_join hc with hmem | ⟨piece, hpiece, hmem⟩
  · exact .inr (all_eq_true.mp hsep c hmem)
  · exact hpieces piece hpiece c hmem

end AddsOnly

theorem compatible_addsOnly (new : Char → Bool) : Compatible (AddsOnly new) where
  nil := .rfl
  append := by
    intro a b c d hab hcd x hx
    rcases mem_append.mp hx with hx | hx
    · exact (hab x hx).imp_left (mem_append_left _)
    · exact (hcd x hx).imp_left (mem_append_right _)

theorem addsOnly_replaceBy {g : Match → Text}
    (h : ∀ m : Match, m.Of p t → AddsOnly new (g m) m.whole) : AddsOnly new (p.replaceBy g t) t :=
  replaceBy_rel (compatible_addsOnly new) (fun _ _ => .rfl) h

theorem addsOnly_replaceWith (p : Pattern) {text : Text} (t : Text) (h : text.all new = true) :
    AddsOnly new (p.replaceWith text t) t :=
  addsOnly_replaceBy fun _ _ => .fixed h

theorem addsOnly_replace {old text : Text} (t : Text) (h : old ≠ [] ∧ text.all new = true) :
    AddsOnly new (Text.replace old text t) t :=
  replace_rel (compatible_addsOnly new) h.1 (fun _ _ => .rfl) (.fixed h.2)

theorem addsOnly_group (k : Nat) (t : Text) (h : a.all new = true ∧ b.all new = true) :
    AddsOnly new (p.replaceBy (fun m => a ++ m.group k ++ b) t) t :=
  addsOnly_replaceBy fun _ hm => (AddsOnly.of_subset (hm.group_isInfix k).subset).enclose h.1 h.2

namespace AddsOnly

theorem replacedWith {text : Text} (htext : text.all new = true) (h : AddsOnly new mid t) :
    AddsOnly new (p.replaceWith text mid) t :=
  (addsOnly_replaceWith p mid htext).trans h

theorem replaced {old text : Text} (htext : old ≠ [] ∧ text.all new = true)
    (h : AddsOnly new mid t) : AddsOnly new (Text.replace old text mid) t :=
  (addsOnly_replace mid htext).trans h

end AddsOnly

namespace Pattern

variable {f : Match → Text} {m : Match}

theorem replaceBy_eq_self_of_not_of (h : ∀ m : Match, ¬ m.Of p t) : p.replaceBy f t = t :=
  replaceBy_rel compatible_eq (fun _ _ => rfl) fun m hm => absurd hm (h m)

theorem isSome_matchAt_past (hof : m.Of p t) : ∃ passed, t = passed ++ m.first.ahead ∧
      (p.matchAt t ((State.start t).past passed m.first.ahead)).isSome = true := by
  obtain ⟨passed, htext, hindex, hbefore⟩ := hof.within
  have hplace : { (State.start t).past passed m.first.ahead with captures := [] } =
      { m.first with captures := [] } := by
    simp [State.start, State.past, hindex, hbefore]
  have hreads :
      Reads p { (State.start t).past passed m.first.ahead with captures := [] } m.whole m.last := by
    rw [hplace]
    exact hof.reads
  exact ⟨passed, htext, isSome_matchAt_of_reads hreads⟩

theorem occursIn_iff : p.occursIn t = true ↔ ∃ m : Match, m.Of p t := by
  constructor
  · intro h
    obtain ⟨m, hm⟩ := Option.isSome_iff_exists.mp h
    exact ⟨m, of_search hm⟩
  · rintro ⟨m, hof⟩
    obtain ⟨passed, htext, hm⟩ := isSome_matchAt_past hof
    exact isSome_searchFrom htext hm

theorem found_mem_segmentsFrom {rest : Text} (hahead : s.ahead = rest)
    (hm : p.searchFrom subject rest s = some m) :
    Segment.found m ∈ p.segmentsFrom subject rest s := by
  induction rest generalizing s with
  | nil =>
    rw [searchFrom] at hm
    simp [segmentsFrom, hm]
  | cons c rest ih =>
    rw [searchFrom] at hm
    cases hhere : p.matchAt subject s with
    | none =>
      rw [hhere] at hm
      rw [segmentsFrom_of_none hhere hahead]
      exact mem_cons_of_mem _ (ih rfl hm)
    | some first =>
      rw [hhere] at hm
      obtain rfl : first = m := Option.some.inj hm
      simp only [segmentsFrom, hhere]
      split <;> exact mem_cons_self

theorem countP_replaceBy_lt {set : Char → Bool} (hoccurs : p.occursIn t = true)
    (hless : ∀ m : Match, m.Of p t → (f m).countP set < m.whole.countP set) :
    (p.replaceBy f t).countP set < t.countP set := by
  obtain ⟨m, hm⟩ := Option.isSome_iff_exists.mp hoccurs
  have hfound : Segment.found m ∈ p.segments t := found_mem_segmentsFrom rfl hm
  rw [replaceBy, countP_flatMap]
  conv => rhs; rw [← flatMap_segments p t, countP_flatMap]
  refine sum_lt_sum _ _ (fun x hx => ?_) ⟨.found m, hfound, hless m (segments_of _ hfound)⟩
  cases x with
  | plain c => exact Nat.le_refl _
  | found m => exact Nat.le_of_lt (hless m (segments_of _ hx))

variable {R : Text → Text → Text → Prop}

/-- A relation between the passed parts of the old and the new text and the text ahead that is
carried on over characters and matches. -/
structure CarriedOn (p : Pattern) (f : Match → Text) (t : Text) (R : Text → Text → Text → Prop) :
    Prop where
  plain : ∀ c old new rest, R old new (c :: rest) → R (c :: old) (c :: new) rest
  found : ∀ m old new, m.Of p t → m.first.before = old.head? → R old new m.first.ahead →
    R (m.whole.reverse ++ old) ((f m).reverse ++ new) m.last.ahead

/-- The relation holds at the end if it holds at the start. -/
theorem CarriedOn.rel_replaceBy (h : CarriedOn p f t R) (hstart : R [] [] t) :
    R t.reverse (p.replaceBy f t).reverse [] := by
  have hrel : ∀ {old rest l}, Cuts p t old rest l → ∀ new, R old new rest →
      R (rest.reverse ++ old) ((l.flatMap (replaced f)).reverse ++ new) [] := by
    intro old rest l hcuts
    induction hcuts with
    | done => exact fun _ hR => hR
    | plain _ _ ih =>
      intro new hR
      simpa [replaced] using ih _ (h.plain _ _ _ _ hR)
    | found hof hahead hbefore _ ih =>
      intro new hR
      subst hahead
      simpa [replaced, hof.ahead_eq] using ih _ (h.found _ _ _ hof hbefore hR)
  have hend := hrel (cuts_segments p t) [] hstart
  rw [append_nil, append_nil] at hend
  exact hend

end Pattern

end CodeConverter
