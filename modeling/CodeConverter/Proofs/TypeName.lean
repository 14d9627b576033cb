import CodeConverter.Proofs.Pattern.Preferred
import CodeConverter.Proofs.Program.Name
import CodeConverter.TypeName

/-!
# Types of annotations

An annotation with type arguments is a tree. It is written with brackets and commas, and its
translation follows the tree, however deep it is.
-/

namespace CodeConverter.TypeName

open Text Pattern Program List

/-! ## Annotations -/

/-- The names with a meaning of their own in front of arguments. -/
def heads : List Text :=
  listNames ++ dictionaryNames ++ ["Optional".toList, "Union".toList]

/-- An annotation. Unions and other generic types have at least one argument. -/
inductive Annotation where
  | base (name : Subtype IsName)
  | list (head : { head // head ∈ listNames }) (item : Annotation)
  | dictionary (head : { head // head ∈ dictionaryNames }) (key value : Annotation)
  | optional (item : Annotation)
  | union (first : Annotation) (rest : List Annotation)
  | other (head : { head // IsName head ∧ head ∉ heads }) (first : Annotation)
      (rest : List Annotation)

/-- A name in front of arguments. -/
def bracketed (head : Text) (arguments : List Text) : Text :=
  head ++ ('[' :: (join ", " arguments ++ [']']))

namespace Annotation

/-- The text of an annotation. -/
def print : Annotation → Text
  | base name => name
  | list head item => bracketed head [item.print]
  | dictionary head key value => bracketed head [key.print, value.print]
  | optional item => bracketed "Optional" [item.print]
  | union first rest => bracketed "Union" (first.print :: rest.map print)
  | other head first rest => bracketed head (first.print :: rest.map print)

/-- The type that an annotation stands for. -/
def translate : Annotation → Text
  | base name => (typescriptAnnotations.lookup name.1).getD name
  | list _ item => if item.translate.contains '|' then "(" ++ item.translate ++ ")[]"
      else item.translate ++ "[]"
  | dictionary _ key value => "Record<" ++ key.translate ++ ", " ++ value.translate ++ ">"
  | optional item => item.translate ++ " | null"
  | union first rest => join " | " (first.translate :: rest.map translate)
  | other .. => "any"

/-- An annotation is a name, or a name in front of arguments that alone decide on its type. -/
theorem print_cases (a : Annotation) :
    (IsName a.print ∧ a.translate = (typescriptAnnotations.lookup a.print).getD a.print) ∨
      ∃ (head : Text) (arguments : List Annotation), IsName head ∧
      a.print = bracketed head (arguments.map print) ∧
        ∀ argument : Text → Text, (∀ b ∈ arguments, argument b.print = b.translate) →
          typescriptGeneric argument head (arguments.map print) = a.translate := by
  have hlist : ∀ head ∈ listNames, IsName head := by decide
  have hdictionary : ∀ head ∈ dictionaryNames, IsName head ∧ head ∉ listNames := by decide
  cases a with
  | base name =>
    rw [print, translate]
    exact .inl ⟨name.2, rfl⟩
  | list head item =>
    refine .inr ⟨head, [item], hlist _ head.2, by rw [print]; rfl, fun argument h => ?_⟩
    rw [translate, ← h item mem_cons_self]
    simp [typescriptGeneric, head.2]
  | dictionary head key value =>
    refine .inr ⟨head, [key, value], (hdictionary _ head.2).1, by rw [print]; rfl,
      fun argument h => ?_⟩
    rw [translate, ← h key (by simp), ← h value (by simp)]
    simp [typescriptGeneric, head.2, (hdictionary _ head.2).2]
  | optional item =>
    refine .inr ⟨"Optional".toList, [item], by decide, by rw [print]; rfl, fun argument h => ?_⟩
    rw [translate, ← h item mem_cons_self]
    rfl
  | union first rest =>
    refine .inr ⟨"Union".toList, first :: rest, by decide, by rw [print]; rfl, fun argument h => ?_⟩
    show join " | " (((first :: rest).map print).map argument) = _
    rw [translate, ← map_cons, map_map]
    exact congrArg (join _) (map_congr_left h)
  | other head first rest =>
    refine .inr ⟨head, first :: rest, head.2.1, by rw [print]; rfl, fun argument h => ?_⟩
    have hhead := head.2.2
    simp only [heads, mem_append, mem_cons, not_mem_nil, or_false, not_or] at hhead
    rw [translate, map_cons, typescriptGeneric, if_neg (by simpa using hhead.1.1),
      if_neg (by simp [hhead.1.2]), if_neg hhead.2.1, if_neg hhead.2.2]

end Annotation

/-! ## How annotations are read -/

/-- No comma of the text separates arguments at a depth, and its brackets are closed. -/
def Whole (d : Int) (t : Text) : Prop :=
  Unseparated (d, none) t ∧ scanned (d, none) t = (d, none)

/-- What makes a text stay together as an argument at any depth. -/
structure Neat (t : Text) : Prop where
  tidy : Tidy t
  plain : ∀ c ∈ t, isWord c = true ∨ c ∈ ['[', ']', ',', ' ']
  whole : ∀ d : Int, 0 ≤ d → Whole d t

variable {t u head : Text} {arguments : List Text} {d : Int}

theorem Neat.not_mem (h : Neat t) {c : Char} (hword : isWord c = false)
    (hc : c ∉ ['[', ']', ',', ' ']) : c ∉ t := by
  intro hmem
  rcases h.plain c hmem with hw | hmark
  · rw [hword] at hw
    cases hw
  · exact hc hmark

theorem neat_name (h : IsName t) : Neat t where
  tidy := ⟨h.1, h.stripped⟩
  plain := fun c hc => .inl (h.2 c hc)
  whole := fun _ _ => unseparated_plain h.isIdentifier.isEntry.plain

theorem Whole.append (ht : Whole d t) (hu : Whole d u) : Whole d (t ++ u) := by
  rw [Whole, unseparated_append, scanned_append, ht.2]
  exact ⟨⟨ht.1, hu.1⟩, hu.2⟩

/-- Inside brackets no comma separates. -/
theorem whole_join (hd : 0 < d) (h : ∀ a ∈ arguments, Neat a) : Whole d (join ", " arguments) := by
  induction arguments with
  | nil => exact ⟨unseparated_nil, rfl⟩
  | cons a arguments ih =>
    obtain ⟨ha, harguments⟩ := forall_mem_cons.mp h
    have hfirst := ha.whole d (Int.le_of_lt hd)
    cases arguments with
    | nil =>
      rw [join_singleton]
      exact hfirst
    | cons b arguments =>
      have hcomma : Whole d [','] := by
        refine ⟨unseparated_cons.mpr ⟨fun _ heq => ?_, unseparated_nil⟩, ?_⟩
        · exact Int.ne_of_gt hd (Prod.mk.inj heq).1
        · show (d + 0, none) = (d, none)
          rw [Int.add_zero]
      rw [join_cons_cons]
      exact hfirst.append
        ((hcomma.append (@unseparated_plain [' '] d (by decide))).append (ih harguments))

theorem neat_bracketed (hhead : IsName head) (h : ∀ a ∈ arguments, Neat a) :
    Neat (bracketed head arguments) where
  tidy := (neat_name hhead).tidy.append ('[' :: join ", " arguments) ⟨cons_ne_nil ']' [], rfl⟩
  plain := by
    intro c hc
    simp only [bracketed, mem_append, mem_cons] at hc
    rcases hc with hc | rfl | hc | hc
    · exact .inl (hhead.2 c hc)
    · decide
    · rcases mem_join hc with hc | ⟨a, ha, hc⟩
      · exact .inr (mem_append_right ['[', ']'] hc)
      · exact (h a ha).plain c hc
    · simp_all
  whole := by
    intro d hd
    have hopen : scanStep (d, none) '[' = (d + 1, none) := rfl
    obtain ⟨hinner, hend⟩ := whole_join (d := d + 1) (by omega) h
    refine ((neat_name hhead).whole d hd).append ⟨unseparated_cons.mpr ⟨by simp, ?_⟩, ?_⟩
    · rw [hopen, unseparated_append, hend]
      exact ⟨hinner, unseparated_cons.mpr ⟨by simp, unseparated_nil⟩⟩
    · rw [scanned, foldl_cons, hopen]
      show scanned (d + 1, none) _ = _
      rw [scanned_append, hend]
      show (d + 1 - 1, none) = (d, none)
      rw [Int.add_sub_cancel]

theorem length_lt_bracketed (h : t ∈ arguments) : t.length < (bracketed head arguments).length := by
  have hjoin : t.length ≤ (join ", " arguments).length := by
    induction arguments with
    | nil => cases h
    | cons a arguments ih =>
      cases arguments with
      | nil => rw [mem_singleton.mp h, join_singleton]
      | cons b arguments =>
        simp only [join_cons_cons, length_append]
        rcases mem_cons.mp h with rfl | h
        · omega
        · have := ih h
          omega
  simp only [bracketed, length_append, length_cons]
  omega

theorem Neat.unmarked (h : Neat t) :
    dropEndWhile (fun c => Literal.isPlainQuote c) ((strip t).dropWhile fun c =>
    Literal.isPlainQuote c) = t := by
  have hdrop : ∀ u : Text, (∀ c ∈ u, c ∈ t) →
      u.dropWhile (fun c => Literal.isPlainQuote c) = u := by
    intro u hu
    cases u with
    | nil => rfl
    | cons c u =>
      refine dropWhile_cons_of_neg fun hquote => h.not_mem ?_ ?_ (hu c mem_cons_self)
      all_goals simp only [Literal.isPlainQuote, Bool.or_eq_true, decide_eq_true_eq] at hquote
      all_goals rcases hquote with rfl | rfl <;> decide
  rw [h.tidy.2, hdrop t fun _ => id, dropEndWhile, hdrop _ fun c hc => mem_reverse.mp hc,
    reverse_reverse]

theorem typescriptWithin_name (h : IsName t) (depth : Nat) :
    typescriptWithin (depth + 1) t = (typescriptAnnotations.lookup t).getD t := by
  have hopen : ∀ c ∈ t, decide (c = '[') = false :=
    fun c hc => decide_eq_false fun heq => h.not_mem rfl (heq ▸ hc)
  have hmatch : generic.matchStart t = none :=
    matchStart_eq_none_of_needs rfl (h.not_mem rfl) rfl hopen
  rw [typescriptWithin, if_neg (by simpa using h.1)]
  dsimp only
  rw [(neat_name h).unmarked, hmatch]
  exact if_neg (by simpa using h.not_mem rfl)

/-- A generic type is respelled by its head and its arguments. -/
theorem typescriptWithin_bracketed (hhead : IsName head) (h : ∀ a ∈ arguments, Neat a)
    (depth : Nat) : typescriptWithin (depth + 1) (bracketed head arguments) =
      typescriptGeneric (typescriptWithin depth) head arguments := by
  have hneat := neat_bracketed hhead h
  have hline : '\n' ∉ bracketed head arguments := hneat.not_mem (by decide) (by decide)
  have hinLine : ∀ c ∈ join ", " arguments, inLine c = true := by
    refine fun c hc => decide_eq_true fun heq => hline ?_
    rw [← heq]
    exact mem_append_right _ (mem_cons_of_mem _ (mem_append_left _ hc))
  have hclose :
      Completes (first "]" (first .atEnd some)) [']'] [(2, join ", " arguments), (1, head)]
      [(2, join ", " arguments), (1, head)] := (Completes.atEnd _).literal
  have hopen := (hclose.group_last hinLine not_mem_nil).literal (t := "[")
  obtain ⟨u, hu, hfound⟩ := hopen.group (p := word)
    (fun hahead hk => first_many1 hahead hhead.1 hhead.2 (by simp; decide) hk)
    (.start (bracketed head arguments)) rfl rfl
  obtain ⟨m, hm, hgroups⟩ := matchStart_of_first (p := generic) (u := u)
    (by simp only [generic, first_append]; exact first_atStart rfl hu)
  rw [hfound] at hgroups
  rw [typescriptWithin, if_neg (by simpa using hneat.tidy.1)]
  dsimp only
  rw [hneat.unmarked, hm]
  have hsplit : splitArguments (join ", " arguments) = arguments :=
    splitArguments_join (fun a ha =>
      ⟨(h a ha).tidy.1, (h a ha).tidy.2, ((h a ha).whole 0 (Int.le_refl 0)).1⟩)
      fun a ha => ((h a (mem_of_mem_dropLast ha)).whole 0 (Int.le_refl 0)).2
  show typescriptGeneric _ (m.group 1) (splitArguments (m.group 2)) = _
  rw [Match.group, Match.group, hgroups, hgroups]
  show typescriptGeneric _ head (splitArguments (join ", " arguments)) = _
  rw [hsplit]

namespace Annotation

theorem neat_print (a : Annotation) : Neat a.print := by
  induction hn : a.print.length using Nat.strong_induction_on generalizing a with
  | _ n ih =>
    rcases a.print_cases with ⟨hname, -⟩ | ⟨head, arguments, hhead, hprint, -⟩
    · exact neat_name hname
    · rw [hprint] at hn ⊢
      refine neat_bracketed hhead (forall_mem_map.mpr fun b hb => ih _ ?_ b rfl)
      rw [← hn]
      exact length_lt_bracketed (mem_map_of_mem hb)

theorem typescriptWithin_print (depth : Nat) (a : Annotation) (h : a.print.length < depth) :
    typescriptWithin depth a.print = a.translate := by
  induction depth generalizing a with
  | zero => exact absurd h (Nat.not_lt_zero _)
  | succ depth ih =>
    rcases a.print_cases with ⟨hname, htranslate⟩ | ⟨head, arguments, hhead, hprint, htranslate⟩
    · rw [htranslate, typescriptWithin_name hname]
    · rw [hprint, typescriptWithin_bracketed hhead (forall_mem_map.mpr fun b _ => b.neat_print)]
      refine htranslate _ fun b hb => ih b (Nat.lt_of_lt_of_le ?_ (Nat.le_of_lt_succ h))
      rw [hprint]
      exact length_lt_bracketed (mem_map_of_mem hb)

end Annotation

end CodeConverter.TypeName
