import CodeConverter.Proofs.Text.Run

/-!
# Arguments

What splitting at the commas of a list does to texts written one after another. A comma separates
where no bracket and no quote is open, so a text that is passed over without a separating comma goes
to one argument as a whole.
-/

namespace CodeConverter

open Text Literal List

variable {place : Int × Option Char} {current t u rest a : Text} {c : Char}
    {args : List Text} {d : Int}

/-- The bracket depth and the open quote after one more character. -/
def scanStep (place : Int × Option Char) (c : Char) : Int × Option Char :=
  (if place.2.isSome then place.1 else place.1 + depthChange c, quoteAfter isQuote place.2 c)

/-- The bracket depth and the open quote after a text. -/
def scanned (place : Int × Option Char) (t : Text) : Int × Option Char :=
  t.foldl scanStep place

theorem scanned_append (place : Int × Option Char) (t u : Text) :
    scanned place (t ++ u) = scanned (scanned place t) u := foldl_append

/-- No comma of the text separates arguments. -/
def Unseparated (place : Int × Option Char) (t : Text) : Prop :=
  ∀ a b, t = a ++ ',' :: b → scanned place a ≠ (0, none)

theorem unseparated_nil : Unseparated place [] := by
  intro a b h
  simp at h

theorem unseparated_cons :
    Unseparated place (c :: t) ↔ (c = ',' → place ≠ (0, none)) ∧
    Unseparated (scanStep place c) t := by
  constructor
  · intro h
    exact ⟨fun hc => h [] t (by rw [hc]; rfl), fun a b hab => h (c :: a) b (by rw [hab]; rfl)⟩
  · rintro ⟨hcomma, hlater⟩ a b hab
    cases a with
    | nil => exact hcomma (cons.inj hab).1
    | cons d a =>
      obtain ⟨rfl, htail⟩ := cons.inj hab
      exact hlater a b htail

theorem unseparated_append :
    Unseparated place (t ++ u) ↔ Unseparated place t ∧ Unseparated (scanned place t) u := by
  induction t generalizing place with
  | nil => exact (and_iff_right unseparated_nil).symm
  | cons c t ih => rw [cons_append, unseparated_cons, unseparated_cons, ih, and_assoc]; rfl

/-- Text without the open quote leaves it open. -/
theorem unseparated_quoted {q : Char} (h : q ∉ t) :
    Unseparated (d, some q) t ∧ scanned (d, some q) t = (d, some q) := by
  induction t with
  | nil => exact ⟨unseparated_nil, rfl⟩
  | cons c t ih =>
    have hstep : scanStep (d, some q) c = (d, some q) := by
      simp [scanStep, quoteAfter, ne_of_not_mem_cons h |>.symm]
    obtain ⟨hlater, hend⟩ := ih (not_mem_of_not_mem_cons h)
    refine ⟨unseparated_cons.mpr ⟨fun _ => by simp, by rwa [hstep]⟩, ?_⟩
    rw [scanned, foldl_cons, hstep]
    exact hend

theorem unseparated_plain (h : ∀ c ∈ t, c ≠ ',' ∧ depthChange c = 0 ∧ isQuote c = false) :
    Unseparated (d, none) t ∧ scanned (d, none) t = (d, none) := by
  induction t with
  | nil => exact ⟨unseparated_nil, rfl⟩
  | cons c t ih =>
    obtain ⟨hcomma, hdepth, hquote⟩ := h c mem_cons_self
    have hstep : scanStep (d, none) c = (d, none) := by simp [scanStep, quoteAfter, hdepth, hquote]
    obtain ⟨hlater, hend⟩ := ih fun d hd => h d (mem_cons_of_mem _ hd)
    refine ⟨unseparated_cons.mpr ⟨fun hc => absurd hc hcomma, by rwa [hstep]⟩, ?_⟩
    rw [scanned, foldl_cons, hstep]
    exact hend

theorem splitArgumentsFrom_cons (h : c = ',' → place ≠ (0, none)) :
    splitArgumentsFrom place.1 place.2 current (c :: t) =
      splitArgumentsFrom (scanStep place c).1 (scanStep place c).2 (c :: current) t := by
  obtain ⟨depth, quote⟩ := place
  cases quote with
  | some q => rfl
  | none =>
    have hnot : (decide (c = ',') && decide (depth = 0)) = false := by
      by_cases hc : c = ','
      · have hdepth : depth ≠ 0 := fun hdepth => h hc (by rw [hdepth])
        simp [hdepth]
      · simp [hc]
    rw [splitArgumentsFrom, hnot]
    rfl

theorem Unseparated.splitArgumentsFrom_append (h : Unseparated place t) (current rest : Text) :
    splitArgumentsFrom place.1 place.2 current (t ++ rest) =
      splitArgumentsFrom (scanned place t).1 (scanned place t).2 (t.reverse ++ current) rest := by
  induction t generalizing place current with
  | nil => rfl
  | cons c t ih =>
    obtain ⟨hcomma, hlater⟩ := unseparated_cons.mp h
    rw [cons_append, splitArgumentsFrom_cons hcomma, ih hlater, reverse_cons, append_assoc]
    rfl

/-- A text that splitting gives back as one argument has no separating comma. -/
theorem unseparated_of_length {first : Text} {others : List Text}
    (h : splitArgumentsFrom place.1 place.2 current t = first :: others)
    (hlength : current.length + t.length ≤ first.length) : Unseparated place t := by
  induction t generalizing place current with
  | nil => exact unseparated_nil
  | cons c t ih =>
    have hcomma : c = ',' → place ≠ (0, none) := by
      rintro rfl rfl
      have hfirst : strip current.reverse = first := (cons.inj h).1
      have hle := (strip_isInfix current.reverse).length_le
      rw [hfirst, length_reverse] at hle
      rw [length_cons] at hlength
      omega
    rw [splitArgumentsFrom_cons hcomma] at h
    refine unseparated_cons.mpr ⟨hcomma, ih h ?_⟩
    simp only [length_cons] at hlength ⊢
    omega

theorem splitArgumentsFrom_lead {lead : Text} (hlead : ∀ c ∈ lead, isBlank c = true) :
    splitArgumentsFrom place.1 place.2 (current ++ lead) t = splitArgumentsFrom place.1 place.2
    current t := by
  have hstrip : ∀ current : Text, strip (current ++ lead).reverse = strip current.reverse := by
    intro current
    rw [reverse_append, strip, stripStart, dropWhile_append_of_pos fun c hc =>
      hlead c (mem_reverse.mp hc)]
    rfl
  induction t generalizing place current with
  | nil => simp only [splitArgumentsFrom, hstrip]
  | cons c t ih =>
    by_cases hcomma : c = ',' → place ≠ (0, none)
    · rw [splitArgumentsFrom_cons hcomma, splitArgumentsFrom_cons hcomma, ← cons_append, ih]
    · obtain ⟨rfl, rfl⟩ : c = ',' ∧ place = (0, none) := by simpa using hcomma
      show strip _ :: _ = strip _ :: _
      rw [hstrip]

/-- A list is split into its entries. -/
theorem splitArguments_join (h : ∀ a ∈ args, a ≠ [] ∧ strip a = a ∧ Unseparated (0, none) a)
    (hclosed : ∀ a ∈ args.dropLast, scanned (0, none) a = (0, none)) :
    splitArguments (join ", " args) = args := by
  induction args with
  | nil => rfl
  | cons a args ih =>
    obtain ⟨hne, hstrip, hwhole⟩ := h a mem_cons_self
    cases args with
    | nil =>
      have hpass := hwhole.splitArgumentsFrom_append [] []
      rw [append_nil, append_nil, splitArgumentsFrom, reverse_reverse, hstrip] at hpass
      rw [join_singleton]
      exact hpass.trans (if_neg (by simpa using hne))
    | cons b args =>
      have hpass := hwhole.splitArgumentsFrom_append [] (", " ++ join ", " (b :: args))
      rw [hclosed a (by simp), append_nil] at hpass
      rw [join_cons_cons, splitArguments, hpass]
      show strip a.reverse.reverse :: splitArgumentsFrom 0 none [' '] (join ", " (b :: args)) = _
      have hlater := ih (fun a ha => h a (mem_cons_of_mem _ ha)) fun c hc =>
        hclosed c (by simp [hc])
      have hlead := @splitArgumentsFrom_lead (0, none) [] (join ", " (b :: args)) [' '] (by decide)
      rw [reverse_reverse, hstrip, ← nil_append [' '], hlead]
      exact congrArg (a :: ·) hlater

/-- The text behind the last separating comma, given the characters since the comma before, the
latest first. -/
def lastSegment (place : Int × Option Char) (current : Text) : Text → Text
  | [] => current.reverse
  | c :: t =>
    if c = ',' ∧ place = (0, none) then lastSegment place [] t
      else lastSegment (scanStep place c) (c :: current) t

/-- A comma outside of brackets and literals ends an argument. -/
theorem splitArgumentsFrom_comma (hend : scanned place a = (0, none))
    (hlast : strip (lastSegment place current a) ≠ [])
    (b : Text) : splitArgumentsFrom place.1 place.2 current (a ++ ',' :: b) =
      splitArgumentsFrom place.1 place.2 current a ++ splitArguments b := by
  induction a generalizing place current with
  | nil =>
    obtain rfl : place = (0, none) := hend
    show strip current.reverse :: splitArguments b = (if _ then _ else _) ++ _
    rw [if_neg (by simpa [lastSegment] using hlast)]
    rfl
  | cons c a ih =>
    rw [lastSegment] at hlast
    split at hlast
    next hcomma =>
      obtain ⟨rfl, rfl⟩ := hcomma
      exact congrArg (strip current.reverse :: ·) (ih hend hlast)
    next hcomma =>
      have hpass : c = ',' → place ≠ (0, none) := not_and.mp hcomma
      rw [cons_append, splitArgumentsFrom_cons hpass, splitArgumentsFrom_cons hpass]
      exact ih hend hlast

/-- Splitting undoes joining, and a comma outside brackets and quotes splits a list in two. -/
theorem splitArguments_undoes_join :
    (∀ args : List Text,
    (∀ a ∈ args, Tidy a ∧ Unseparated (0, none) a ∧ scanned (0, none) a = (0, none)) →
      splitArguments (join ", " args) = args) ∧
    ∀ a b : Text, scanned (0, none) a = (0, none) → strip (lastSegment (0, none) [] a) ≠ [] →
      splitArguments (a ++ ',' :: b) = splitArguments a ++ splitArguments b := by
  refine ⟨fun args h => ?_, fun a b hend hlast => splitArgumentsFrom_comma hend hlast b⟩
  exact splitArguments_join (fun a ha => ⟨(h a ha).1.1, (h a ha).1.2, (h a ha).2.1⟩)
    fun a ha => (h a (mem_of_mem_dropLast ha)).2.2

/-- The comma in a call and the one in a literal separate no arguments. -/
theorem splitArguments_undoes_join_call :
    splitArguments (join ", " ["f(a, [b])".toList, "', ('".toList]) =
    ["f(a, [b])".toList, "', ('".toList] ∧
      splitArguments ("f(1, 2), ',' ".toList ++ ',' :: " , [3".toList) =
        splitArguments "f(1, 2), ',' ".toList ++ splitArguments " , [3".toList := by
  have hwhole : ∀ {a : Text}, splitArguments a = [a] → Unseparated (0, none) a := fun {a} h =>
    @unseparated_of_length (0, none) [] a a [] h (Nat.le_of_eq (Nat.zero_add _))
  refine ⟨splitArguments_undoes_join.1 _ ?_,
    splitArguments_undoes_join.2 _ _ (by decide) (by decide)⟩
  rw [forall_mem_cons, forall_mem_singleton]
  exact ⟨⟨⟨by decide, by decide⟩, hwhole rfl, by decide⟩, ⟨by decide, by decide⟩,
    hwhole rfl, by decide⟩

end CodeConverter
