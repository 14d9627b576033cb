import CodeConverter.Literal.Interpolation
import CodeConverter.Literal.Mask
import CodeConverter.Proofs.Literal.Scan
import CodeConverter.Proofs.Pattern.Field
import CodeConverter.Proofs.Text.Balance

/-!
# Templates

A backtick literal is rewritten as a marked one by taking the dollar signs from its holes; its text
is copied. The copy is one literal exactly if the text has no quote of the other kind, and it reads
as the same template if the text has no brace either.
-/

namespace CodeConverter.Literal

open Text Pattern List

/-- Text of a backtick literal on one line, without escapes and holes. -/
def IsChunk (t : Text) : Prop :=
  (∀ c ∈ t, c ≠ '`' ∧ c ≠ '\\' ∧ c ≠ '\n') ∧ ¬ ['$', '{'] <:+: t

/-- Code without braces and quotes. -/
def IsHole (t : Text) : Prop :=
  ∀ c ∈ t, isBrace c = false ∧ isQuote c = false

/-- A backtick literal: its text up to the first hole, and each hole with the text after it. -/
structure Template where
  start : Text
  holes : List (Text × Text)
  isChunk_start : IsChunk start
  isHole : ∀ p ∈ holes, IsHole p.1
  isChunk : ∀ p ∈ holes, IsChunk p.2

/-- Holes written one by one behind a mark, each with the text after it. -/
def written (mark : Text) (holes : List (Text × Text)) : Text :=
  holes.flatMap fun p => mark ++ (p.1 ++ '}' :: p.2)

/-- The contents of a marked literal as text and fields in turn, from the text or from a field on. A
doubled brace is a brace of the text, every other one opens or closes a field. -/
def readMarked : Bool → Text → Option (List Text)
  | true, [] => none
  | true, c :: t =>
    if c = '{' then none
    else if c = '}' then (readMarked false t).map ([] :: ·)
    else (readMarked true t).map (modifyHead (c :: ·))
  | false, [] => some [[]]
  | false, [c] => if isBrace c then none else some [[c]]
  | false, c :: d :: t =>
    if isBrace c && c = d then (readMarked false t).map (modifyHead (c :: ·))
    else if c = '{' then (readMarked true (d :: t)).map ([] :: ·)
    else if c = '}' then none
    else (readMarked false (d :: t)).map (modifyHead (c :: ·))

example : readMarked false "{{a}} {x}" = some ["{a} ".toList, "x".toList, []] := by decide

namespace Template

/-- The literal as it is written. -/
def text (T : Template) : Text :=
  '`' :: (T.start ++ written "$\x7b" T.holes ++ ['`'])

/-- What the marked literal has between its quotes. -/
def contents (T : Template) : Text :=
  T.start ++ written "\x7b" T.holes

/-- Text and holes in turn. -/
def pieces (T : Template) : List Text :=
  T.start :: T.holes.flatMap fun p => [p.1, p.2]

/-- The pieces of text. -/
def chunks (T : Template) : List Text :=
  T.start :: T.holes.map Prod.snd

end Template

variable {chunk hole t rest out subject : Text} {holes : List (Text × Text)} {c quote : Char}
    {g : Text → Text}

theorem IsHole.not_mem (h : IsHole hole) (hc : isBrace c = true ∨ isQuote c = true) : c ∉ hole := by
  intro hmem
  obtain ⟨hbrace, hquote⟩ := h c hmem
  rw [hbrace, hquote] at hc
  simp at hc

/-! ## What is written -/

theorem rewritten_chunk (h : Rewritten dollarField g subject rest out)
    (hchunk : ¬ ['$', '{'] <:+: chunk)
    (hrest : rest.head? ≠ some '{') :
    Rewritten dollarField g subject (chunk ++ rest) (chunk ++ out) := by
  refine h.skip fun a b hab hb s hs => (matchAt_field_none fun inner later hahead => ?_ :
    (field ['$', '{'] inLine false '}').matchAt _ _ = none)
  obtain ⟨x, b, rfl⟩ := exists_cons_of_ne_nil hb
  obtain ⟨rfl, htail⟩ := cons.inj (hs.symm.trans hahead)
  cases b with
  | nil =>
    refine absurd ?_ hrest
    rw [show rest = _ from htail]
    rfl
  | cons y b =>
    obtain ⟨rfl, -⟩ := cons.inj htail
    exact absurd ⟨a, b, by rw [hab]; simp⟩ hchunk

theorem head_written_ne (holes : List (Text × Text)) :
    (written "$\x7b" holes).head? ≠ some '{' := by
  cases holes <;> simp [written]

/-- Each hole loses its dollar sign. -/
theorem rewritten_holes (subject : Text)
    (hholes : ∀ p ∈ holes, IsHole p.1 ∧ IsChunk p.2 ∧ '\n' ∉ p.1) :
    Rewritten dollarField (fun t => "\x7b" ++ t ++ "\x7d") subject (written "$\x7b" holes)
    (written "\x7b" holes) := by
  induction holes with
  | nil => exact .nil rfl
  | cons p holes ih =>
    obtain ⟨⟨hhole, hchunk, hline⟩, hlater⟩ := forall_mem_cons.mp hholes
    have hrest := rewritten_chunk (ih hlater) hchunk.2 (head_written_ne holes)
    have hinner : ∀ c ∈ p.1, inLine c = true := fun c hc => decide_eq_true fun heq =>
      hline (heq ▸ hc)
    have hparts : ∀ mark : Text,
        written mark (p :: holes) = mark ++ (p.1 ++ '}' :: (p.2 ++ written mark holes)) := by
      simp [written]
    rw [hparts, hparts, show "\x7b" ++ (p.1 ++ '}' :: (p.2 ++ written "\x7b" holes)) =
      "\x7b" ++ p.1 ++ "\x7d" ++ (p.2 ++ written "\x7b" holes) by simp]
    exact Rewritten.found hrest hinner (hhole.not_mem (by decide)) (by simp)

/-- A template is written as a marked literal with the same parts. -/
theorem backtickToMarked_text (T : Template) (hline : ∀ p ∈ T.holes, '\n' ∉ p.1) :
    backtickToMarked T.text = 'f' :: '"' :: (T.contents ++ ['"']) := by
  have hinner : dollarToBrace (T.start ++ written "$\x7b" T.holes) = T.contents := by
    have hholes := rewritten_holes (T.start ++ written "$\x7b" T.holes) fun p hp =>
      ⟨T.isHole p hp, T.isChunk p hp, hline p hp⟩
    exact (rewritten_chunk hholes T.isChunk_start.2 (head_written_ne T.holes)).replaceBy_eq
  have hplain : ∀ c ∈ T.start ++ written "$\x7b" T.holes, c ≠ '`' := by
    rintro c hc rfl
    rcases mem_append.mp hc with hstart | hlater
    · exact (T.isChunk_start.1 _ hstart).1 rfl
    · obtain ⟨p, hp, hmem⟩ := mem_flatMap.mp hlater
      have hhole : '`' ∉ p.1 := (T.isHole p hp).not_mem (by decide)
      have hchunk : '`' ∉ p.2 := fun hmem => ((T.isChunk p hp).1 _ hmem).1 rfl
      simp [hhole, hchunk] at hmem
  have hall :
      Rewritten (field ['`'] (except ['`']) true '`') (fun t => "f\"" ++ dollarToBrace t ++ "\"")
      T.text T.text _ :=
    .found (.nil rfl) (fun c hc => by simpa [except] using hplain c hc) (fun hmem =>
      hplain _ hmem rfl) fun _ => rfl
  have hreplaced := hall.replaceBy_eq
  rw [hinner, append_nil] at hreplaced
  exact hreplaced

/-! ## Where the literal ends -/

theorem tail_chunk_iff (hchunk : ∀ c ∈ chunk, c ≠ '\\') (ht : t ≠ []) :
    tail quote (chunk ++ t) = chunk ++ t ↔ quote ∉ chunk ∧ tail quote t = t := by
  induction chunk with
  | nil => simp
  | cons c chunk ih =>
    obtain ⟨hc, hlater⟩ := forall_mem_cons.mp hchunk
    rw [cons_append, tail_cons hc]
    by_cases heq : c = quote
    · simp [heq, ht]
    · simp [heq, ih hlater, Ne.symm heq]

/-- An escape in a hole may reach its closing brace, but not further. -/
theorem tail_hole (hquote : quote ≠ '}') (hhole : quote ∉ hole) (t : Text) :
    tail quote (hole ++ '}' :: t) = hole ++ '}' :: tail quote t := by
  fun_induction leftover quote hole with
  | case1 =>
    rw [nil_append, tail_cons (by decide), if_neg hquote.symm]
    rfl
  | case2 => rfl
  | case3 c hole ih =>
    rw [cons_append, cons_append, tail,
      ih (not_mem_of_not_mem_cons (not_mem_of_not_mem_cons hhole))]
    rfl
  | case4 hole => exact absurd mem_cons_self hhole
  | case5 c hole hsingle hpair hc ih =>
    rw [cons_append, tail_cons (ne_escape hsingle hpair), if_neg hc,
      ih (not_mem_of_not_mem_cons hhole)]
    rfl

/-- The literal ends at its last quote exactly if no part has one. -/
theorem tail_written_iff (hchunk : IsChunk chunk) (hholes : ∀ p ∈ holes, IsHole p.1 ∧ IsChunk p.2) :
    tail '"' (chunk ++ (written "\x7b" holes ++ ['"'])) = chunk ++ (written "\x7b" holes ++ ['"']) ↔
      ∀ u ∈ chunk :: holes.map Prod.snd, '"' ∉ u := by
  rw [tail_chunk_iff (fun c hc => (hchunk.1 c hc).2.1) (by simp), forall_mem_cons]
  refine and_congr_right fun _ => ?_
  induction holes with
  | nil => exact iff_of_true rfl (by simp)
  | cons p holes ih =>
    obtain ⟨⟨hhole, hnext⟩, hlater⟩ := forall_mem_cons.mp hholes
    have hafter :=
      @tail_chunk_iff p.2 (written "\x7b" holes ++ ['"']) '"' (fun c hc =>
        (hnext.1 c hc).2.1) (by simp)
    have hquote : '"' ∉ '{' :: p.1 := by simpa using @IsHole.not_mem p.1 '"' hhole (by decide)
    have htail := tail_hole (by decide) hquote (p.2 ++ (written "\x7b" holes ++ ['"']))
    have hparts : written "\x7b" (p :: holes) ++ ['"'] =
        '{' :: p.1 ++ '}' :: (p.2 ++ (written "\x7b" holes ++ ['"'])) := by simp [written]
    rw [hparts, htail, append_right_inj, cons_inj_right, hafter, map_cons, forall_mem_cons]
    exact and_congr_right fun _ => ih hlater

/-! ## What is read -/

theorem readMarked_append (inside : Bool) (hchunk : ∀ c ∈ chunk, isBrace c = false) (t : Text) :
    readMarked inside (chunk ++ t) = (readMarked inside t).map (modifyHead (chunk ++ ·)) := by
  induction chunk with
  | nil =>
    cases h : readMarked inside t with
    | none => exact h
    | some pieces => cases pieces <;> exact h
  | cons c chunk ih =>
    obtain ⟨hc, hlater⟩ := forall_mem_cons.mp hchunk
    have hpush :
        ∀ t, readMarked inside (c :: t) = (readMarked inside t).map (modifyHead (c :: ·)) := by
      obtain ⟨hopen, hclose⟩ : c ≠ '{' ∧ c ≠ '}' := by simpa [isBrace] using hc
      intro t
      cases inside with
      | true => simp [readMarked, hopen, hclose]
      | false => cases t <;> simp [readMarked, hc, hopen, hclose]
    rw [cons_append, hpush, ih hlater, Option.map_map]
    congr 1
    funext pieces
    cases pieces <;> rfl

theorem readMarked_field (hhole : IsHole hole) (t : Text) :
    readMarked false ('{' :: (hole ++ '}' :: t)) = (readMarked false t).map ([] :: hole :: ·) := by
  have hopen : readMarked false ('{' :: (hole ++ '}' :: t)) =
      (readMarked true (hole ++ '}' :: t)).map ([] :: ·) := by
    cases hole with
    | nil => rfl
    | cons c hole =>
      have hc : '{' ≠ c := by
        rintro rfl
        exact absurd (hhole _ mem_cons_self).1 (by decide)
      simp [readMarked, hc]
  rw [hopen, readMarked_append true (fun c hc => (hhole c hc).1),
    show readMarked true ('}' :: t) = (readMarked false t).map ([] :: ·) from rfl, Option.map_map,
        Option.map_map]
  congr 1
  funext pieces
  simp

theorem readMarked_written (hholes : ∀ p ∈ holes, IsHole p.1 ∧ ∀ c ∈ p.2, isBrace c = false) :
    readMarked false (written "\x7b" holes) = some ([] :: holes.flatMap fun p => [p.1, p.2]) := by
  induction holes with
  | nil => rfl
  | cons p holes ih =>
    obtain ⟨⟨hhole, hchunk⟩, hlater⟩ := forall_mem_cons.mp hholes
    have hparts :
        written "\x7b" (p :: holes) = '{' :: (p.1 ++ '}' :: (p.2 ++ written "\x7b" holes)) := by
      simp [written]
    rw [hparts, readMarked_field hhole, readMarked_append false hchunk, ih hlater]
    simp

/-- A template whose holes stand on one line each becomes one marked literal exactly if its text has
no quote, and the literal reads as the template if its text has no brace. -/
theorem template_marked (T : Template) (hline : ∀ p ∈ T.holes, '\n' ∉ p.1) :
    backtickToMarked T.text = 'f' :: '"' :: (T.contents ++ ['"']) ∧
      (endIndex (backtickToMarked T.text) 1 = .ok ((backtickToMarked T.text).length - 1) ↔
        ∀ chunk ∈ T.chunks, '"' ∉ chunk) ∧
      ((∀ chunk ∈ T.chunks, ∀ c ∈ chunk, isBrace c = false) →
      readMarked false T.contents = some T.pieces) := by
  rw [backtickToMarked_text T hline]
  refine ⟨rfl, ?_, fun hchunks => ?_⟩
  · rw [Template.chunks, ← tail_written_iff T.isChunk_start fun p hp =>
      ⟨T.isHole p hp, T.isChunk p hp⟩, ← append_assoc]
    show endIndex ('f' :: '"' :: (T.contents ++ ['"'])) 1 = _ ↔
        tail '"' (T.contents ++ ['"']) = T.contents ++ ['"']
    generalize T.contents ++ ['"'] = contents
    have hfront : tail '"' contents <+: contents := ⟨_, tail_append_leftover '"' contents⟩
    have hend : endIndex ('f' :: '"' :: contents) 1 = .ok (1 + (tail '"' contents).length) := rfl
    rw [hend, Except.ok.injEq, length_cons, length_cons, Nat.add_sub_cancel, Nat.add_comm,
      Nat.add_left_inj]
    exact ⟨hfront.eq_of_length, congrArg length⟩
  · obtain ⟨hstart, hlater⟩ := forall_mem_cons.mp hchunks
    rw [Template.contents, readMarked_append false hstart,
      readMarked_written fun p hp => ⟨T.isHole p hp, hlater p.2 (mem_map_of_mem hp)⟩]
    simp [Template.pieces]

/-- A template with one hole has one hole as a marked literal. -/
theorem template_marked_hole : ∃ T : Template, T.text = "`a ${x}`" ∧
    backtickToMarked T.text = "f\"a {x}\"" ∧ endIndex (backtickToMarked T.text) 1 = .ok 7 ∧
      readMarked false T.contents = some ["a ".toList, "x".toList, []] := by
  have hchunk : ∀ t : Text, (∀ c ∈ t, c ≠ '`' ∧ c ≠ '\\' ∧ c ≠ '\n') ∧ '$' ∉ t → IsChunk t :=
    fun t ht =>
    ⟨ht.1, fun hin => ht.2 (hin.subset mem_cons_self)⟩
  let T : Template := ⟨"a ", [("x", [])], hchunk _ (by decide), by unfold IsHole; decide,
    forall_mem_singleton.mpr (hchunk _ (by decide))⟩
  obtain ⟨htext, hend, hread⟩ :=
    template_marked T (show ∀ p ∈ [("x".toList, ([] : Text))], '\n' ∉ p.1 by decide)
  have hplain : ∀ chunk ∈ T.chunks, '"' ∉ chunk ∧ ∀ c ∈ chunk, isBrace c = false :=
    (by decide : ∀ chunk ∈ ["a ".toList, []], '"' ∉ chunk ∧ ∀ c ∈ chunk, isBrace c = false)
  refine ⟨T, rfl, htext, ?_, hread fun chunk hmem => (hplain chunk hmem).2⟩
  rw [hend.mpr fun chunk hmem => (hplain chunk hmem).1, htext]
  rfl

/-- A quote of the text ends the literal, and a brace of the text opens a field. -/
theorem template_marked_clash :
    backtickToMarked "`say \"${x}\"`" = "f\"say \"{x}\"\"" ∧
      endIndex "f\"say \"{x}\"\"" 1 = .ok 6 ∧
      backtickToMarked "`{a}`" = "f\"{a}\"" ∧
      readMarked false "{a}" = some [[], ['a'], []] := by
  decide +kernel

end CodeConverter.Literal
