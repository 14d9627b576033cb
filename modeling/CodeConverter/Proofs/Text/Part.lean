import CodeConverter.Argument
import Mathlib.Data.List.Infix
import Mathlib.Data.List.TakeWhile

/-!
# Parts of a text

Stripping, cutting and splitting give connected parts of the text they are applied to. So whatever
holds of all characters of a text, or bounds a number of them, carries over to the parts.
-/

namespace CodeConverter

open List

variable {a b t piece rest run current : Text} {c sep : Char} {pieces : List Text} {depth : Int}
    {quote : Option Char}

namespace Text

theorem append_cons_inj_of_not_mem {x : Char} {c d : Text} (ha : x ∉ a) (hc : x ∉ c)
    (h : a ++ x :: b = c ++ x :: d) : a = c ∧ b = d := by
  induction a generalizing c with
  | nil =>
    cases c with
    | nil => exact ⟨rfl, (cons.inj h).2⟩
    | cons y c =>
      obtain ⟨rfl, -⟩ := cons.inj h
      exact absurd mem_cons_self hc
  | cons y a ih =>
    cases c with
    | nil =>
      obtain ⟨rfl, -⟩ := cons.inj h
      exact absurd mem_cons_self ha
    | cons z c =>
      obtain ⟨rfl, htail⟩ := cons.inj h
      obtain ⟨rfl, rfl⟩ := ih (fun hmem => ha (mem_cons_of_mem _ hmem))
        (fun hmem => hc (mem_cons_of_mem _ hmem)) htail
      exact ⟨rfl, rfl⟩

theorem dropEndWhile_isPrefix (drop : Char → Bool) (t : Text) : dropEndWhile drop t <+: t := by
  rw [← reverse_suffix, dropEndWhile, reverse_reverse]
  exact dropWhile_suffix drop

theorem stripEnd_isPrefix (t : Text) : stripEnd t <+: t :=
  dropEndWhile_isPrefix isBlank t

theorem stripStart_suffix (t : Text) : stripStart t <:+ t :=
  dropWhile_suffix isBlank

theorem dropLast_isInfix (t : Text) : t.dropLast <:+: t :=
  dropLast_prefix t |>.isInfix

theorem strip_isInfix (t : Text) : strip t <:+: t :=
  (stripEnd_isPrefix _).isInfix.trans (stripStart_suffix t).isInfix

theorem dropEndWhile_parts (drop : Char → Bool) (t : Text) :
    ∃ dropped, t = dropEndWhile drop t ++ dropped ∧ ∀ c ∈ dropped, drop c = true := by
  refine ⟨(t.reverse.takeWhile drop).reverse, ?_, fun c hc => ?_⟩
  · rw [dropEndWhile, ← reverse_append, takeWhile_append_dropWhile, reverse_reverse]
  · exact all_eq_true.mp all_takeWhile c (mem_reverse.mp hc)

theorem strip_parts (t : Text) :
    ∃ lead gap, t = lead ++ strip t ++ gap ∧ (∀ c ∈ lead, isBlank c = true) ∧ ∀ c ∈ gap,
    isBlank c = true := by
  obtain ⟨gap, hgap, hblank⟩ := dropEndWhile_parts isBlank (stripStart t)
  refine ⟨t.takeWhile isBlank, gap, ?_, fun c hc => all_eq_true.mp all_takeWhile c hc, hblank⟩
  rw [append_assoc]
  exact (takeWhile_append_dropWhile (p := isBlank)).symm.trans (congrArg _ hgap)

theorem strip_eq_nil_iff : strip t = [] ↔ ∀ c ∈ t, isBlank c = true := by
  constructor
  · intro hnil
    obtain ⟨lead, gap, hparts, hlead, hgap⟩ := strip_parts t
    rw [hnil, append_nil] at hparts
    rw [hparts]
    exact forall_mem_append.mpr ⟨hlead, hgap⟩
  · intro hall
    have hstart : stripStart t = [] := dropWhile_eq_nil_iff.mpr hall
    rw [strip, hstart]
    rfl

theorem cut_fst_isPrefix (sep : Char) (t : Text) : (cut sep t).1 <+: t :=
  takeWhile_prefix _

theorem cut_of_not_mem (h : sep ∉ t) : cut sep t = (t, []) := by
  have hall : ∀ c ∈ t, decide (c ≠ sep) = true := fun c hc => decide_eq_true fun heq => h (heq ▸ hc)
  rw [cut, takeWhile_eq_self_iff.mpr hall, dropWhile_eq_nil_iff.mpr hall]
  rfl

theorem cut_snd_suffix (sep : Char) (t : Text) : (cut sep t).2 <:+ t :=
  (drop_suffix 1 _).trans (dropWhile_suffix _)

theorem eq_append_of_dropPrefix? (h : dropPrefix? piece t = some rest) : t = piece ++ rest := by
  induction piece generalizing t with
  | nil => simpa [dropPrefix?] using h
  | cons c piece ih =>
    cases t with
    | nil => cases h
    | cons d t =>
      simp only [dropPrefix?] at h
      split at h
      · rename_i hcd
        rw [hcd, ih h, cons_append]
      · cases h

theorem splitOn_eq_cons (sep : Char) (t : Text) :
    ∃ piece pieces, splitOn sep t = piece :: pieces ∧ piece <+: t ∧ ∀ p ∈ pieces, p <:+: t := by
  induction t with
  | nil => exact ⟨[], [], rfl, prefix_rfl, by simp⟩
  | cons c t ih =>
    obtain ⟨piece, pieces, heq, hpiece, hpieces⟩ := ih
    have hrest : ∀ p ∈ pieces, p <:+: c :: t :=
      fun p hp => (hpieces p hp).trans (suffix_cons c t).isInfix
    simp only [splitOn, heq]
    split
    · refine ⟨[], piece :: pieces, rfl, nil_prefix, fun p hp => ?_⟩
      rcases mem_cons.mp hp with rfl | hp
      · exact hpiece.isInfix.trans (suffix_cons c t).isInfix
      · exact hrest p hp
    · exact ⟨c :: piece, pieces, rfl, cons_prefix_cons.mpr ⟨rfl, hpiece⟩, hrest⟩

theorem splitOn_append (sep : Char) (t u : Text) :
    splitOn sep (t ++ sep :: u) = splitOn sep t ++ splitOn sep u := by
  induction t with
  | nil => simp [splitOn]
  | cons c t ih =>
    rw [cons_append, splitOn, splitOn, ih]
    split
    · rfl
    · obtain ⟨piece, pieces, heq, -, -⟩ := splitOn_eq_cons sep t
      rw [heq]
      rfl

theorem infix_of_mem_splitOn (h : piece ∈ splitOn sep t) : piece <:+: t := by
  obtain ⟨first, rest, heq, hfirst, hrest⟩ := splitOn_eq_cons sep t
  rw [heq] at h
  rcases mem_cons.mp h with rfl | h
  · exact hfirst.isInfix
  · exact hrest _ h

theorem splitOn_of_not_mem (h : sep ∉ t) : splitOn sep t = [t] := by
  induction t with
  | nil => rfl
  | cons c t ih =>
    rw [mem_cons, not_or] at h
    rw [splitOn, if_neg (Ne.symm h.1), ih h.2]

theorem not_mem_of_mem_splitOn (h : piece ∈ splitOn sep t) : sep ∉ piece := by
  induction t generalizing piece with
  | nil =>
    obtain rfl : piece = [] := by simpa [splitOn] using h
    simp
  | cons c t ih =>
    obtain ⟨first, rest, heq, -, -⟩ := splitOn_eq_cons sep t
    simp only [splitOn, heq] at h ih
    split at h
    · rcases mem_cons.mp h with rfl | h
      · simp
      · exact ih h
    · rename_i hne
      rcases mem_cons.mp h with rfl | h
      · have hfirst : sep ∉ first := ih mem_cons_self
        simp only [mem_cons, not_or]
        exact ⟨fun h => hne h.symm, hfirst⟩
      · exact ih (mem_cons_of_mem _ h)

/-- The words collected from an end of a text are parts of it, and the first one starts it if it is
still open. -/
def WordsOf (t : Text) (state : Bool × List Text) : Prop :=
  (state.1 = true → ∃ word rest, state.2 = word :: rest ∧ word <+: t) ∧ ∀ word ∈ state.2,
    word <:+: t

theorem pushWord_of_isBlank (h : isBlank c = true) (isOpen : Bool) (words : List Text) :
    pushWord c (isOpen, words) = (false, words) :=
  if_pos h

theorem pushWord_of_open (h : ¬ isBlank c = true) (word : Text) (words : List Text) :
    pushWord c (true, word :: words) = (true, (c :: word) :: words) :=
  if_neg h

theorem pushWord_of_closed (h : ¬ isBlank c = true) (words : List Text) :
    pushWord c (false, words) = (true, [c] :: words) :=
  if_neg h

/-- One more character keeps the words parts of the text. -/
theorem WordsOf.push {state : Bool × List Text} (h : WordsOf t state) (c : Char) :
    WordsOf (c :: t) (pushWord c state) := by
  obtain ⟨isOpen, words⟩ := state
  obtain ⟨hfirst, hparts⟩ := h
  have hrest : ∀ word ∈ words, word <:+: c :: t :=
    fun word hword => (hparts word hword).trans (suffix_cons c t).isInfix
  have hadd : ∀ word : Text, c :: word <+: c :: t → ∀ others : List Text,
      (∀ w ∈ others, w ∈ words) → WordsOf (c :: t) (true, (c :: word) :: others) := by
    intro word hword others hothers
    refine ⟨fun _ => ⟨c :: word, others, rfl, hword⟩, fun w hw => ?_⟩
    rcases mem_cons.mp hw with rfl | hw
    · exact hword.isInfix
    · exact hrest w (hothers w hw)
  have hone : [c] <+: c :: t := cons_prefix_cons.mpr ⟨rfl, nil_prefix⟩
  by_cases hblank : isBlank c = true
  · rw [pushWord_of_isBlank hblank]
    exact ⟨fun h => (by cases h), hrest⟩
  · cases isOpen with
    | false =>
      rw [pushWord_of_closed hblank]
      exact hadd [] hone words fun _ hw => hw
    | true =>
      obtain ⟨word, others, heq, hahead⟩ := hfirst rfl
      obtain rfl : words = word :: others := heq
      rw [pushWord_of_open hblank]
      exact hadd word (cons_prefix_cons.mpr ⟨rfl, hahead⟩) others
        fun w hw => mem_cons_of_mem _ hw

theorem wordsOf_foldr (t : Text) : WordsOf t (t.foldr pushWord (false, [])) := by
  induction t with
  | nil => exact ⟨fun h => (by cases h), fun _ h => (by cases h)⟩
  | cons c t ih => exact ih.push c

theorem infix_of_mem_words {word : Text} (h : word ∈ words t) : word <:+: t :=
  (wordsOf_foldr t).2 word h

@[simp] theorem join_nil (sep : Text) : join sep [] = [] := by simp [join]

@[simp] theorem join_singleton (sep piece : Text) : join sep [piece] = piece := by simp [join]

theorem join_cons_cons (sep piece next : Text) (pieces : List Text) :
    join sep (piece :: next :: pieces) = piece ++ (sep ++ join sep (next :: pieces)) := by
  simp [join, intercalate]

theorem join_cons (sep piece : Text) (pieces : List Text) :
    join sep (piece :: pieces) = piece ++ pieces.flatMap (sep ++ ·) := by
  induction pieces generalizing piece with
  | nil => simp
  | cons next pieces ih => rw [join_cons_cons, ih, flatMap_cons, append_assoc]

theorem mem_join {sep : Text} (h : c ∈ join sep pieces) : c ∈ sep ∨ ∃ piece ∈ pieces,
    c ∈ piece := by
  cases pieces with
  | nil => simp at h
  | cons first pieces =>
    rw [join_cons, mem_append, mem_flatMap] at h
    rcases h with h | ⟨piece, hpiece, h⟩
    · exact .inr ⟨first, mem_cons_self, h⟩
    · exact (mem_append.mp h).imp_right fun h => ⟨piece, mem_cons_of_mem _ hpiece, h⟩

theorem infix_join (sep : Text) (h : piece ∈ pieces) : piece <:+: join sep pieces := by
  cases pieces with
  | nil => cases h
  | cons first pieces =>
    rw [join_cons]
    rcases mem_cons.mp h with rfl | h
    · exact (prefix_append _ _).isInfix
    · have hin := (suffix_append sep piece).isInfix.trans (infix_of_mem_flatten (mem_map_of_mem h))
      exact hin.trans (suffix_append _ _).isInfix

theorem includes_iff : includes t piece = true ↔ piece <:+: t := by
  induction t with
  | nil => simp [includes]
  | cons c t ih => rw [includes, Bool.or_eq_true, ih, isPrefixOf_iff_prefix, infix_cons_iff]

theorem infix_append_cons (h : run <:+: a ++ c :: b) (hc : c ∉ run) : run <:+: a ∨ run <:+: b := by
  have hahead : ∀ {part : Text}, part <+: c :: b → part ⊆ run → part = [] := by
    intro part hpart hsubset
    cases part with
    | nil => rfl
    | cons d part =>
      obtain ⟨rfl, -⟩ := cons_prefix_cons.mp hpart
      exact absurd (hsubset mem_cons_self) hc
  rcases infix_append_iff.mp h with h | h | ⟨left, right, rfl, hleft, hright⟩
  · exact .inl h
  · rcases infix_cons_iff.mp h with h | h
    · rw [hahead h (Subset.refl _)]
      exact .inl nil_infix
    · exact .inr h
  · rw [hahead hright (subset_append_right _ _), append_nil]
    exact .inl hleft.isInfix

theorem infix_append_sep {sep : Text} (h : run <:+: a ++ (sep ++ b)) (hne : sep ≠ [])
    (hsep : ∀ c ∈ sep, c ∉ run) : run <:+: a ∨ run <:+: b := by
  induction sep generalizing a with
  | nil => exact absurd rfl hne
  | cons c sep ih =>
    rcases infix_append_cons h (hsep c mem_cons_self) with h | h
    · exact .inl h
    · cases sep with
      | nil => exact .inr h
      | cons d sep =>
        rcases ih (a := []) h (cons_ne_nil _ _) fun x hx => hsep x (mem_cons_of_mem _ hx) with h | h
        · rw [infix_nil.mp h]
          exact .inl nil_infix
        · exact .inr h

theorem infix_of_infix_join {sep : Text} (h : run <:+: join sep pieces) (hne : sep ≠ [])
    (hsep : ∀ c ∈ sep, c ∉ run) : run = [] ∨ ∃ piece ∈ pieces, run <:+: piece := by
  induction pieces with
  | nil => exact .inl (infix_nil.mp (by simpa using h))
  | cons piece pieces ih =>
    cases pieces with
    | nil => exact .inr ⟨piece, mem_cons_self, by simpa using h⟩
    | cons next pieces =>
      rw [join_cons_cons] at h
      rcases infix_append_sep h hne hsep with h | h
      · exact .inr ⟨piece, mem_cons_self, h⟩
      · refine (ih h).imp_right ?_
        rintro ⟨p, hp, hwithin⟩
        exact ⟨p, mem_cons_of_mem _ hp, hwithin⟩

theorem filter_join (set : Char → Bool) (sep : Text) (pieces : List Text) :
    (join sep pieces).filter set = join (sep.filter set) (pieces.map (filter set)) := by
  induction pieces with
  | nil => simp
  | cons piece pieces ih =>
    cases pieces with
    | nil => simp
    | cons next pieces =>
      rw [join_cons_cons, filter_append, filter_append, ih]
      exact (join_cons_cons _ _ _ _).symm

theorem countP_join {set : Char → Bool} {sep : Text} (hsep : sep.countP set = 0)
    (pieces : List Text) : (join sep pieces).countP set = pieces.flatten.countP set := by
  induction pieces with
  | nil => simp
  | cons piece pieces ih =>
    cases pieces with
    | nil => simp
    | cons next pieces =>
      rw [join_cons_cons, countP_append, countP_append, ih, hsep, Nat.zero_add]
      exact countP_append.symm

end Text

theorem infix_of_mem_splitArgumentsFrom
    (h : a ∈ splitArgumentsFrom depth quote current t) : a <:+: current.reverse ++ t := by
  induction t generalizing depth quote current with
  | nil =>
    simp only [splitArgumentsFrom] at h
    split at h
    · cases h
    · obtain rfl : a = Text.strip current.reverse := by simpa using h
      rw [append_nil]
      exact Text.strip_isInfix _
  | cons c t ih =>
    have hmove : ∀ {d : Int} {q : Option Char}, a ∈ splitArgumentsFrom d q (c :: current) t →
        a <:+: current.reverse ++ c :: t := by
      intro d q hmem
      simpa using ih hmem
    cases quote with
    | some q => exact hmove h
    | none =>
      simp only [splitArgumentsFrom] at h
      split at h
      · rcases mem_cons.mp h with rfl | h
        · exact (Text.strip_isInfix _).trans (prefix_append _ _).isInfix
        · refine (ih h).trans ?_
          exact ⟨current.reverse ++ [c], [], by simp⟩
      · exact hmove h

theorem infix_of_mem_splitArguments (h : a ∈ splitArguments t) : a <:+: t := by
  simpa using infix_of_mem_splitArgumentsFrom h

theorem blank_of_splitArgumentsFrom_eq_nil
    (h : splitArgumentsFrom depth quote current t = []) : ∀ c ∈ current.reverse ++ t,
    Text.isBlank c = true := by
  induction t generalizing depth quote current with
  | nil =>
    simp only [splitArgumentsFrom] at h
    split at h
    · rename_i hnil
      rw [append_nil]
      exact Text.strip_eq_nil_iff.mp (isEmpty_iff.mp hnil)
    · cases h
  | cons d t ih =>
    have hlater : ∀ depth quote, splitArgumentsFrom depth quote (d :: current) t = [] →
        ∀ c ∈ current.reverse ++ d :: t, Text.isBlank c = true := by
      intro depth quote hnil
      simpa using ih hnil
    cases quote with
    | some q => exact hlater _ _ h
    | none =>
      simp only [splitArgumentsFrom] at h
      split at h
      · cases h
      · exact hlater _ _ h

theorem splitArgumentsFrom_blank (hcurrent : ∀ c ∈ current, Text.isBlank c = true)
    (ht : ∀ c ∈ t, Text.isBlank c = true) : splitArgumentsFrom depth none current t = [] := by
  induction t generalizing depth current with
  | nil =>
    have hnil : Text.strip current.reverse = [] :=
      Text.strip_eq_nil_iff.mpr fun c hc => hcurrent c (mem_reverse.mp hc)
    simp [splitArgumentsFrom, hnil]
  | cons d t ih =>
    have hd : Text.isBlank d = true := ht d mem_cons_self
    have hcomma : d ≠ ',' := by
      rintro rfl
      exact absurd hd (by decide)
    have hquote : Literal.isQuote d = false := by
      rw [Bool.eq_false_iff]
      intro hquote
      simp only [Literal.isQuote, Bool.or_eq_true, decide_eq_true_eq] at hquote
      rcases hquote with (rfl | rfl) | rfl <;> exact absurd hd (by decide)
    simp only [splitArgumentsFrom, hcomma, decide_false, Bool.false_and,
      Bool.false_eq_true, if_false, quoteAfter, hquote]
    exact ih (forall_mem_cons.mpr ⟨hd, hcurrent⟩) fun c hc => ht c (mem_cons_of_mem _ hc)

theorem splitArguments_eq_nil_iff : splitArguments t = [] ↔ ∀ c ∈ t, Text.isBlank c = true :=
  ⟨fun h => by simpa using blank_of_splitArgumentsFrom_eq_nil h,
    fun h => splitArgumentsFrom_blank (fun _ hc => absurd hc not_mem_nil) h⟩

/-- A comment starts after the code. -/
theorem cutComment_parts {code : Text} (h : cutComment quote t = some (code, rest)) :
    t = code ++ '#' :: rest := by
  induction t generalizing quote code with
  | nil => cases quote <;> cases h
  | cons c t ih =>
    have hmove : ∀ (q : Option Char) (f : Text × Text → Text × Text), (∀ p, f p = (c :: p.1, p.2)) →
        (cutComment q t).map f = some (code, rest) → c :: t = code ++ '#' :: rest := by
      intro q f hf hq
      obtain ⟨p, hcut, heq⟩ := Option.map_eq_some_iff.mp hq
      rw [hf] at heq
      obtain ⟨rfl, rfl⟩ := Prod.mk.inj heq
      rw [ih hcut, cons_append]
    cases quote with
    | some q => exact hmove _ _ (fun _ => rfl) h
    | none =>
      simp only [cutComment] at h
      split at h
      · rename_i hc
        obtain ⟨rfl, rfl⟩ := Prod.mk.inj (Option.some.inj h)
        rw [hc, nil_append]
      · exact hmove _ _ (fun _ => rfl) h

theorem splitComment_fst_isPrefix (t : Text) : (splitComment t).1 <+: t := by
  simp only [splitComment]
  split
  · rename_i code rest h
    refine (Text.stripEnd_isPrefix code).trans ?_
    rw [cutComment_parts h]
    exact prefix_append _ _
  · exact prefix_rfl

theorem splitComment_snd_isInfix {comment : Text} (h : (splitComment t).2 = some comment) :
    comment <:+: t := by
  simp only [splitComment] at h
  split at h
  · rename_i code rest hcut
    obtain rfl : Text.strip rest = comment := by simpa using h
    refine (Text.strip_isInfix rest).trans ?_
    exact ⟨code ++ ['#'], [], by rw [cutComment_parts hcut]; simp⟩
  · cases h

end CodeConverter
