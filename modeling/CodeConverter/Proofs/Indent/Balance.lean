import CodeConverter.Proofs.Expression.Added
import CodeConverter.Proofs.Indent.Nesting

/-!
# The braces of open blocks

The braces written so far are those of the open blocks: one for every block that is not silent, and
one for an announced block whose header is already written. Opening and closing blocks keeps this,
also when an announced block turns out to be empty.
-/

namespace CodeConverter.Indent

open Text List

variable {u : Text} {scope : Scope}

/-- A text without braces. -/
def Plain (t : Text) : Prop :=
  ∀ ch ∈ t, isBrace ch = false

/-- The brace of the announced block, which its header has opened. -/
def State.announced (s : State) : Nat :=
  if s.pendingScope.any (· ≠ .silent) then 1 else 0

/-- The braces written so far. -/
def State.braces (s : State) : Text :=
  s.output.toList.flatten.filter isBrace

/-- The braces of some code. -/
def codeBraces (code : Code) : Text :=
  (code.text?.getD []).filter isBrace

/-- The open braces are those of the open blocks and of the announced one. The remembered names of
classes are balanced. -/
structure Braced (s : State) : Prop where
  braces : openAfter 0 s.braces = some (s.depth + s.announced)
  names : ∀ name ∈ s.classNames, Balanced name

variable {c : Conversion} {s t : State} {text : Text} {n : Nat}

theorem Plain.part (h : Plain text) (hu : u ⊆ text) : Plain u := fun ch hch => h ch (hu hch)

theorem Plain.addsOnly (h : Plain text) (hu : AddsOnly isOrdinary u text) : Plain u :=
  hu.forall_mem h fun ch hch => by
    rcases brace_cases ch with rfl | rfl | hother
    · cases hch
    · cases hch
    · exact hother

theorem plain_of_all (h : text.all notBrace = true) : Plain text := by
  intro ch hch
  have hnot := all_eq_true.mp h ch hch
  rcases brace_cases ch with rfl | rfl | hother
  · cases hnot
  · cases hnot
  · exact hother

/-- The type of an annotation has the characters of the annotation and fixed ones. -/
theorem addsOnly_typescriptWithin (depth : Nat) (hint : Text) :
    AddsOnly isOrdinary (TypeName.typescriptWithin depth hint) hint := by
  induction depth generalizing hint with
  | zero => exact .rfl
  | succ depth ih =>
    unfold TypeName.typescriptWithin
    split
    · exact .fixed rfl
    have hin :
        dropEndWhile Literal.isPlainQuote ((strip hint).dropWhile Literal.isPlainQuote) <:+: hint :=
      ((dropEndWhile_isPrefix _ _).isInfix.trans (dropWhile_suffix _).isInfix).trans
        (strip_isInfix hint)
    simp only
    split
    · rename_i m hm
      have harguments : ∀ a ∈ splitArguments (m.group 2),
          AddsOnly isOrdinary (TypeName.typescriptWithin depth a) hint :=
        fun a ha => (ih a).trans (.of_subset
          (((infix_of_mem_splitArguments ha).trans (matchStart_group_isInfix hm 2)).trans
          hin).subset)
      unfold TypeName.typescriptGeneric
      split
      · rename_i first rest hlist
        have hmem : ∀ a ∈ first :: rest,
            AddsOnly isOrdinary (TypeName.typescriptWithin depth a) hint := by
          rw [← hlist]
          exact harguments
        have hfirst := hmem first mem_cons_self
        split
        · dsimp only
          split
          · exact hfirst.enclose rfl rfl
          · exact hfirst.append (.fixed rfl)
        · split
          · rename_i hone
            have hrest :
                AddsOnly isOrdinary (TypeName.typescriptWithin depth (rest.headD [])) hint := by
              cases rest with
              | nil => simp at hone
              | cons second rest => exact hmem second (mem_cons_of_mem _ mem_cons_self)
            exact ((hfirst.enclose rfl rfl).append hrest).append (.fixed rfl)
          · split
            · exact hfirst.append (.fixed rfl)
            · split
              · refine .join rfl fun piece hpiece => ?_
                obtain ⟨a, ha, rfl⟩ := mem_map.mp hpiece
                exact harguments a ha
              · exact .fixed rfl
      · split
        · exact .fixed rfl
        · exact .fixed rfl
    · split
      · refine .join rfl fun piece hpiece => ?_
        obtain ⟨a, ha, rfl⟩ := mem_map.mp hpiece
        exact (ih a).trans (.of_subset ((infix_of_mem_splitOn ha).trans hin).subset)
      · cases hlookup : TypeName.typescriptAnnotations.lookup
            (dropEndWhile Literal.isPlainQuote ((strip hint).dropWhile Literal.isPlainQuote)) with
        | none => exact .of_subset hin.subset
        | some type => exact .fixed (all_of_lookup rfl hlookup)

theorem addsOnly_collection (value : Text) :
    AddsOnly isOrdinary (Expression.ToJava.collection value) value := by
  have hinner : (value.drop 1).dropLast <:+: value :=
    (dropLast_isInfix _).trans (drop_suffix 1 value).isInfix
  unfold Expression.ToJava.collection
  split
  · exact .fixed rfl
  split
  · exact (AddsOnly.of_subset hinner.subset).enclose rfl rfl
  split
  · exact .fixed rfl
  split
  · refine AddsOnly.enclose (.join rfl fun piece hpiece => ?_) rfl rfl
    obtain ⟨entry, hentry, rfl⟩ := mem_map.mp hpiece
    have hin : entry <:+: value := (infix_of_mem_splitArguments hentry).trans hinner
    refine (AddsOnly.append ?_ (.fixed rfl)).append ?_
    · exact .of_subset
        (((strip_isInfix _).trans (cut_fst_isPrefix ':' entry).isInfix).trans hin).subset
    · exact .of_subset
        (((strip_isInfix _).trans (cut_snd_suffix ':' entry).isInfix).trans hin).subset
  · exact .rfl

theorem discipline_plain (c : Conversion) : Discipline c (fun _ => True) Plain Plain Balanced where
  expression := fun known t ht => (c.meets_expression_addsOnly known t).imp fun _ hout =>
    ht.addsOnly hout
  part := fun _ _ ht hu => ht.part hu.subset
  raised := fun t ht => by
    refine ht.addsOnly ?_
    cases c
    all_goals exact addsOnly_replaceWith _ t rfl
  subset := fun _ _ ht hu => ht.part hu
  of_fine := fun _ ht => .of_plain ht
  of_spelled := fun _ ht => .of_plain ht
  append := fun _ _ ht hu => ht.append hu
  plain := fun _ ht => plain_of_all ht
  empty := by decide
  type := fun t ht => .of_plain (ht.addsOnly (addsOnly_typescriptWithin _ t))
  collection := fun t ht => .of_plain (ht.addsOnly (addsOnly_collection t))

theorem braces_emit (c : Conversion) (depth : Nat) (code : Code) (s : State) :
    (s.emit c depth code).braces = s.braces ++ codeBraces code := by
  simp only [State.braces, State.emit, CodeConverter.emit, codeBraces]
  cases code.text? with
  | none => exact (append_nil _).symm
  | some text =>
    simp only [Array.toList_append, flatten_append, filter_append, filter_indentLines,
      Option.getD_some]

theorem filter_replaceFirst {old new : Text} (hold : old.filter isBrace = [])
    (hnew : new.filter isBrace = [])
    (t : Text) : (replaceFirst old new t).filter isBrace = t.filter isBrace := by
  induction t with
  | nil => rfl
  | cons ch t ih =>
    unfold replaceFirst
    split
    · rename_i rest hrest
      rw [eq_append_of_dropPrefix? hrest, filter_append, filter_append, hold, hnew]
    · rw [filter_cons, filter_cons, ih]

theorem Left.braces (h : Left s t) : t.braces = s.braces := by
  rcases h.output with heq | ⟨index, line, hline, heq⟩
  · rw [State.braces, heq]
    rfl
  · have hbraces : (replaceFirst " Object " " void " line).filter isBrace = line.filter isBrace :=
      filter_replaceFirst (by decide) (by decide) line
    have hmap : (s.output.toList.map (.filter isBrace))[index]? = some (line.filter isBrace) := by
      rw [getElem?_map, Array.getElem?_toList, hline]
      rfl
    obtain ⟨hindex, hentry⟩ := List.getElem?_eq_some_iff.mp hmap
    rw [State.braces, State.braces, heq, filter_flatten, filter_flatten, Array.toList_setIfInBounds,
      map_set, hbraces, ← hentry, set_getElem_self]

theorem depth_cons {scopes : List Scope} (hne : scopes ≠ []) (h : s.scopes = scope :: scopes) :
    s.depth = (scopes.dropLast.filter (· ≠ .silent)).length + if scope = .silent then 0 else 1 := by
  rw [State.depth, h, dropLast_cons_of_ne_nil hne]
  by_cases hsilent : scope = .silent
  · rw [filter_cons_of_neg (by simpa using hsilent), if_pos hsilent, Nat.add_zero]
  · rw [filter_cons_of_pos (by simpa using hsilent), if_neg hsilent, length_cons]

theorem openAfter_writeClosing (c : Conversion) (scope : Scope)
    (h : openAfter 0 s.braces = some (n + if scope = .silent then 0 else 1)) :
    openAfter 0 (s.writeClosing c scope).braces = some n := by
  unfold State.writeClosing
  by_cases hsilent : scope = .silent
  · rw [if_pos hsilent, Nat.add_zero] at h
    rw [if_pos hsilent]
    exact h
  · rw [if_neg hsilent] at h
    rw [if_neg hsilent]
    show openAfter 0 (s.emit c s.depth (.line "\x7d")).braces = some n
    rw [braces_emit, openAfter_append_of h]
    rfl

theorem writeClosing_eq (c : Conversion) (s : State) (scope : Scope) :
    ∃ output closed, s.writeClosing c scope = { s with output := output, closed := closed } := by
  unfold State.writeClosing
  split
  · exact ⟨s.output, s.closed, rfl⟩
  · exact ⟨_, _, rfl⟩

/-- Closing the innermost block but the module closes its brace. -/
theorem Braced.meets_pop (h : Braced s) (hpending : s.pendingScope = none)
    (hscopes : 1 < s.scopes.length) : Yields Braced (s.pop c) := by
  obtain ⟨scope, scopes, hscope⟩ := exists_cons_of_length_pos (Nat.lt_of_succ_lt hscopes)
  have hne : scopes ≠ [] := by
    rintro rfl
    rw [hscope] at hscopes
    exact Nat.lt_irrefl 1 hscopes
  have hbraces := h.braces
  rw [depth_cons hne hscope, State.announced, hpending] at hbraces
  unfold State.pop
  rw [hscope]
  cases s.widths with
  | nil => exact .error trivial
  | cons width widths =>
    cases s.names with
    | nil => exact .error trivial
    | cons first names =>
      refine (meets_leave_left c _ scope).imp fun t ht => ?_
      have hclosed :
          openAfter 0 ({ s with widths := widths, scopes := scopes, names := names }.writeClosing c
          scope).braces = some (scopes.dropLast.filter (· ≠ .silent)).length :=
        openAfter_writeClosing c scope hbraces
      obtain ⟨output, closed, heq⟩ :=
        writeClosing_eq c { s with widths := widths, scopes := scopes, names := names } scope
      rw [← ht.braces] at hclosed
      rw [heq] at ht
      refine ⟨?_, fun name hname => h.names name (ht.names hname)⟩
      rw [hclosed, State.announced, ht.same.pendingScope, State.depth, ht.same.scopes]
      simp only [hpending]
      rfl

/-- Closing an empty block keeps the braces balanced. -/
theorem Braced.meets_closeEmpty (h : Braced s) : Yields Braced (s.closeEmpty c) := by
  have hbraces := h.braces
  unfold State.closeEmpty
  split
  · rename_i hnone
    exact .ok ⟨hbraces, h.names⟩
  · rename_i scope hscope
    have hannounced : s.announced = if scope = .silent then 0 else 1 := by
      rw [State.announced, hscope]
      by_cases hsilent : scope = .silent
      · rw [if_pos hsilent, hsilent]
        rfl
      · rw [if_neg hsilent]
        exact if_pos (decide_eq_true hsilent)
    rw [hannounced] at hbraces
    refine (meets_leave_left c s scope).bind fun t ht => .ok ?_
    rw [← ht.braces] at hbraces
    have hclosed := openAfter_writeClosing c scope hbraces
    obtain ⟨output, closed, heq⟩ := writeClosing_eq c t scope
    rw [heq] at hclosed ⊢
    refine ⟨?_, fun name hname => h.names name (ht.names hname)⟩
    show openAfter 0 { t with output := output, closed := closed }.braces = _
    rw [hclosed, State.depth, State.depth, ← ht.same.scopes]
    rfl

/-- The brace of a block that is opened is already written. -/
theorem Braced.push (h : Braced s) (hs : Stacks s) (hscope : s.pendingScope = some scope)
    (width : Nat) : Braced (s.push width) := by
  refine ⟨?_, h.names⟩
  have hscopes : (s.push width).scopes = scope :: s.scopes := by
    show s.pendingScope.getD .block :: s.scopes = _
    rw [hscope]
    rfl
  have hbraces := h.braces
  rw [State.announced, hscope] at hbraces
  rw [depth_cons hs.scopes_ne_nil hscopes]
  show openAfter 0 s.braces = _
  rw [hbraces, State.depth]
  by_cases hsilent : scope = .silent
  · rw [hsilent]
    rfl
  · rw [if_neg hsilent, if_pos (by simpa using hsilent)]
    rfl

theorem Braced.meets_pop_settling {inner next : Nat} {rest : List Nat}
    (h : Settling c n s ∧ Braced s)
    (hwidths : s.widths = inner :: next :: rest) :
    Yields (fun t => Settling c n t ∧ Braced t) (s.pop c) := by
  have hscopes : 1 < s.scopes.length := by
    rw [h.1.blocks.scopes, hwidths, length_cons, length_cons]
    omega
  exact ((h.1.meets_pop hwidths).imp fun _ ht => ht.1).and (h.2.meets_pop h.1.pending hscopes)

theorem Braced.meets_closeWider (width fuel : Nat) (h : Braced s) (hs : Settling c n s) :
    Yields Braced (s.closeWider c width fuel) := by
  have hboth : Yields (fun t => Settling c n t ∧ Braced t) (s.closeWider c width fuel) :=
    Indent.meets_closeWider (fun _ _ _ _ hwidths ht => meets_pop_settling ht hwidths) width
      fuel ⟨hs, h⟩
  exact hboth.imp fun _ ht => ht.2

theorem Braced.meets_closeAll (fuel : Nat) (h : Braced s) (hs : Settling c n s) :
    Yields Braced (s.closeAll c fuel) := by
  have hboth : Yields (fun t => Settling c n t ∧ Braced t) (s.closeAll c fuel) :=
    Indent.meets_closeAll (fun _ _ _ _ hwidths ht => meets_pop_settling ht hwidths) fuel ⟨hs, h⟩
  exact hboth.imp fun _ ht => ht.2

theorem Braced.meets_settleBlocks (h : Braced s) (hs : Inv c s) (width : Nat) :
    Yields Braced (settleBlocks c s width) := by
  have hstart : Braced { s with closed := 0 } := ⟨h.braces, h.names⟩
  have hinv : Inv c { s with closed := 0 } := hs.flags s.hasContent s.brackets 0
  have hbehind : Behind c 0 { s with closed := 0 } :=
    fun _ hclosed => absurd hclosed (Nat.lt_irrefl 0)
  unfold settleBlocks
  refine .ite (fun hsome => ?_) fun hnone => ?_
  · obtain ⟨scope, hscope⟩ := Option.isSome_iff_exists.mp hsome
    refine (meets_innermost hs.blocks.module).bind fun inner _ => .either ?_ ?_
    · exact (hstart.push hinv.blocks hscope width).meets_closeWider
        _ _ (hinv.push hbehind hscope width)
    · have hempty : Yields (Settling c 0) _ :=
        hinv.meets_closeEmpty hbehind (Option.isSome_iff_ne_none.mp hsome)
      exact (hempty.and hstart.meets_closeEmpty).bind fun t ht => ht.2.meets_closeWider _ _ ht.1
  · exact hstart.meets_closeWider _ _ ⟨hinv, hbehind, by simpa using hnone⟩

end CodeConverter.Indent
