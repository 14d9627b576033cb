import CodeConverter.Grammar.CSharp
import CodeConverter.Grammar.JavaScript
import CodeConverter.Grammar.Python
import CodeConverter.Proofs.Line.Classified
import CodeConverter.Proofs.Pattern.Sketch

/-!
# Lines without a form

A line is ruled out for a form by its last character or by a sketch of it. A call is sketched as a
name that ends at its parenthesis.
-/

namespace CodeConverter.Grammar

open Text Pattern Program List Sketch

variable {name line arguments : Text} {sketch : Sketch} {listed : List Text}
    {grammar : List LineForm}

/-- The classes of every form are judged rightly. -/
def Judged (grammar : List LineForm) : Prop :=
  ∀ set ∈ grammar.flatMap (fun form => form.pattern.classes), Sketch.Judged set

/-- The classes of characters in the three grammars are judged. -/
theorem judged_all : ∀ grammar ∈ [CSharp.all, JavaScript.withLambdas, Python.all],
    Judged grammar := by
  have hletter : ∀ c : Char, c.isAlpha = true → isWord c = true := fun c hc =>
    isWord_of_isAlphanum (by rw [Char.isAlphanum, hc]; rfl)
  have hupper : Sketch.Judged Char.isUpper :=
    judged_letters rfl fun c hc => hletter c (Bool.or_eq_true_iff.mpr (.inl hc))
  have hstart : Sketch.Judged nameStart := by
    refine Sketch.judged_letters rfl fun c hc => ?_
    rcases Bool.or_eq_true_iff.mp hc with hc | hc
    · exact hletter c hc
    · rw [of_decide_eq_true hc]
      rfl
  have hspaced : ∀ {listed : Text}, listed.all (fun d => !(isWord d || isMark d)) = true →
      Sketch.Judged (wordBlankOr listed) :=
    fun h => (judged_isWord.or judged_isBlank).or (judged_among h)
  simp only [forall_mem_cons]
  unfold Judged
  refine ⟨?_, ?_, ?_, forall_mem_nil _⟩
  all_goals repeat' first
    | exact judged_wide rfl rfl
    | exact judged_isBlank
    | exact judged_isWord
    | exact judged_among rfl
    | exact judged_wordOr rfl
    | exact judged_isBlank.or (judged_among rfl)
    | exact hspaced rfl
    | exact hupper
    | exact hstart
    | refine forall_mem_cons.mpr ⟨?_, ?_⟩
    | exact forall_mem_nil _

/-- What is known of a call: its name is a word that is not listed and ends at the parenthesis, or
it has a mark, and the word in front of the first one is empty or not among those that are cut off
there. -/
def callSketches (listed cut : List Text) (marks : Char → Bool) : List Sketch :=
  [.word listed (some []) (.sign '(' (.rest inLine)),
    .word cut (some []) (.mark marks (.rest inLine)), .mark marks (.rest inLine)]

theorem matchStart_eq_none_of_leads (hjudged : Judged grammar) (hdraws : sketch.Draws none line)
    {form : LineForm}
    (hform : form ∈ grammar) (h : (form.pattern.leads sketch).isEmpty = true) :
    form.pattern.matchStart line = none := by
  refine Option.eq_none_iff_forall_ne_some.mpr fun m hm => ?_
  obtain ⟨hof, hfirst⟩ := of_matchStart hm
  refine not_reads_of_leads (fun set hset => hjudged set (mem_flatMap.mpr ⟨form, hform, hset⟩)) h
    ?_ hof.reads
  rw [hfirst]
  exact hdraws

section

variable (hname : IsIdentifier name) (hline : '\n' ∉ arguments)

include hname hline

theorem callText_line : '\n' ∉ callText name arguments := by
  have hname := hname.not_mem (d := '\n') rfl
  simp [callText, hname, hline]

/-- Some sketch draws the call. -/
theorem exists_draws_call {cut : List Text} {marks : Char → Bool} {tail : Text}
    (htail : '\n' ∉ tail) (hother : name ∉ listed)
    (hcut : name.takeWhile isWord ∉ cut) (hmarks : ∀ c ∈ name, isMark c = true → marks c = true) :
    ∃ sketch ∈ callSketches listed cut marks,
    sketch.Draws none (callText name arguments ++ tail) := by
  have hbreak : ∀ {t : Text}, '\n' ∉ t → ∀ c ∈ t, inLine c = true :=
    fun ht c hc => decide_eq_true fun h => ht (h ▸ hc)
  have hrest : '\n' ∉ arguments ++ ')' :: tail := by simp [hline, htail]
  have htext : callText name arguments ++ tail = name ++ '(' :: (arguments ++ ')' :: tail) := by
    simp [callText]
  have hsplit : name.takeWhile isWord ++ name.dropWhile isWord = name := takeWhile_append_dropWhile
  have hword : ∀ c ∈ name.takeWhile isWord, isWord c = true := fun c hc => mem_takeWhile_imp hc
  rw [htext]
  cases hmarked : name.dropWhile isWord with
  | nil =>
    rw [hmarked, append_nil] at hsplit
    rw [hsplit] at hword
    exact ⟨_, mem_cons_self, draws_word hname.1 hword hother fun _ => ⟨_, rfl, hbreak hrest⟩⟩
  | cons c rest =>
    have hc : isWord c = false := by
      simpa [hmarked] using head_dropWhile_not isWord
        (show name.dropWhile isWord ≠ [] by simp [hmarked])
    have hmem : c ∈ name := by rw [← hsplit, hmarked]; simp
    have hmark : isMark c = true := by simpa [hc] using hname.2 c hmem
    have hafter : '\n' ∉ rest ++ '(' :: (arguments ++ ')' :: tail) := by
      have hnone := hname.not_mem (d := '\n') rfl
      rw [← hsplit, hmarked] at hnone
      simp only [mem_append, mem_cons, not_or] at hnone hrest ⊢
      exact ⟨hnone.2.2, by decide, hrest⟩
    have hdraws : ∀ before,
        (mark marks (.rest inLine)).Draws before
        (c :: (rest ++ '(' :: (arguments ++ ')' :: tail))) :=
      fun _ => ⟨c, _, rfl, hmark, hmarks c hmem hmark, hbreak hafter⟩
    rw [← hsplit, hmarked, append_assoc, cons_append]
    cases hfront : name.takeWhile isWord with
    | nil => exact ⟨_, mem_cons_of_mem _ (mem_cons_of_mem _ mem_cons_self), hdraws _⟩
    | cons d front =>
      rw [hfront] at hword hcut
      exact ⟨_, mem_cons_of_mem _ mem_cons_self,
        draws_word (cons_ne_nil d front) hword hcut hdraws⟩

/-- A call has no form, when each form is ruled out by the last character or leads nowhere. -/
theorem classify_call (hgrammar : grammar ∈ [CSharp.all, JavaScript.withLambdas, Python.all])
    {cut : List Text}
    {marks : Char → Bool} {tail : Text} {last : Char} (htail : '\n' ∉ tail) (hother : name ∉ listed)
    (hcut : name.takeWhile isWord ∉ cut) (hmarks : ∀ c ∈ name, isMark c = true → marks c = true)
    (hlast : (')' :: tail).getLast? = some last)
    (h : grammar.all (fun form => form.pattern.anchored && !form.pattern.endsWith last ||
      (callSketches listed cut marks).all fun sketch => (form.pattern.leads sketch).isEmpty) =
      true) : (classify grammar (callText name arguments ++ tail)).kind = .generic := by
  obtain ⟨sketch, hsketch, hdraws⟩ := exists_draws_call hname hline htail hother hcut hmarks
  rw [classify_of_none]
  intro form hform
  have hfits := all_eq_true.mp h form hform
  simp only [Bool.or_eq_true, Bool.and_eq_true, Bool.not_eq_true'] at hfits
  rcases hfits with ⟨hanchored, hend⟩ | hleads
  · refine matchStart_eq_none_of_endsWith hanchored ?_ ?_ hend
    · rw [mem_append, not_or]
      exact ⟨callText_line hname hline, htail⟩
    · have hparts :
        callText name arguments ++ tail = (name ++ '(' :: arguments) ++ ')' :: tail := by
        simp [callText]
      rw [hparts, getLast?_append_of_ne_nil _ (cons_ne_nil _ _), hlast]
  · exact matchStart_eq_none_of_leads (judged_all grammar hgrammar) hdraws hform
      (all_eq_true.mp hleads sketch hsketch)

end

end CodeConverter.Grammar
