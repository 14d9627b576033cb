import CodeConverter.Indent.Scan
import CodeConverter.Proofs.Line.Classified

/-!
# Outcomes: what a line of an indented source does

A visited line announces at most one block and writes the brace that opens it. It leaves the open
blocks and the output alone; only the names bound in the innermost block, and in Java the names of
classes and the unsettled result types, may change with it.
-/

namespace CodeConverter.Indent

open Text List

variable {a : Text}

/-- The parts of the state that a visited line leaves alone. -/
structure Frame (s after : State) : Prop where
  output : after.output = s.output
  inComment : after.inComment = s.inComment
  commentDelimiter : after.commentDelimiter = s.commentDelimiter
  hasContent : after.hasContent = s.hasContent
  widths : after.widths = s.widths
  scopes : after.scopes = s.scopes
  names : after.names.length = s.names.length
  closed : after.closed = s.closed
  brackets : after.brackets = s.brackets

theorem Frame.rfl {s : State} : Frame s s :=
  ⟨.refl _, .refl _, .refl _, .refl _, .refl _, .refl _, .refl _, .refl _, .refl _⟩

theorem Frame.trans {s t u : State} (h : Frame s t) (h' : Frame t u) : Frame s u where
  output := h'.output.trans h.output
  inComment := h'.inComment.trans h.inComment
  commentDelimiter := h'.commentDelimiter.trans h.commentDelimiter
  hasContent := h'.hasContent.trans h.hasContent
  widths := h'.widths.trans h.widths
  scopes := h'.scopes.trans h.scopes
  names := h'.names.trans h.names
  closed := h'.closed.trans h.closed
  brackets := h'.brackets.trans h.brackets

/-- A change of the state that announces nothing, and forgets at most that a result type is
unsettled. -/
structure Quiet (s after : State) : Prop extends Frame s after where
  pendingScope : after.pendingScope = s.pendingScope
  classNames : after.classNames = s.classNames
  untyped : after.untyped.length = s.untyped.length
  places : ∀ i, some i ∈ after.untyped → some i ∈ s.untyped

/-- What Java remembers of a line: the name of an announced class, and the result type of an
announced function. -/
structure Remembers (s : State) (l : Classified) (r : State × Code) : Prop where
  classes :
    r.1.classNames.length = s.classNames.length + if r.1.pendingScope = some .classBody
    then 1 else 0
  functions :
    r.1.untyped.length = s.untyped.length + if r.1.pendingScope = some .function then 1 else 0
  /-- An unsettled result type stands in the line that is about to be written. -/
  places : ∀ i, some i ∈ r.1.untyped → some i ∈ s.untyped ∨
    (i = s.output.size ∧ isContinuation l.kind = false ∧ ∃ text, r.2 = .line text)

/-- The code of a line, given what it announces. The texts between braces are `good`. -/
inductive Shape (c : Conversion) (good : Text → Prop) (s : State) (l : Classified) (after : State) :
    Code → Prop
  | plain {code : Code} : isContinuation l.kind = false → after.pendingScope = s.pendingScope →
      (∀ t, code.text? = some t → good t) → Shape c good s l after code
  | silent : isContinuation l.kind = false → after.pendingScope = some .silent →
      Shape c good s l after .nothing
  | opening {code : Code} {scope : Scope} {text rest : Text} : isContinuation l.kind = false →
      after.pendingScope = some scope → scope ≠ .silent ∧ scope ≠ .module →
      code.text? = some (text ++ " \x7b" ++ rest) →
      good text → good rest → Shape c good s l after code
  | continued {text : Text} : isContinuation l.kind = true → after.pendingScope = some .block →
      good text → Shape c good s l after (.line ("\x7d " ++ text ++ " \x7b"))
  /-- A loop over a range that has no counting loop is a generic line, but in PHP its block is
  already announced. -/
  | loose {text : Text} : c = .toPhp → l.kind = .rangeForHeader → after.pendingScope = some .block →
      after.expression c l.line = .ok text → (endsIn (· = ':') text && s.brackets = 0) = false →
      Shape c good s l after (.line (s.terminate text))

/-- What a visited line does. -/
structure Outcome (c : Conversion) (good : Text → Prop) (s : State) (l : Classified)
    (r : State × Code) : Prop where
  frame : Frame s r.1
  classNames : ∀ name ∈ r.1.classNames, name ∈ s.classNames ∨ good name
  memory : c = .toJava → Remembers s l r
  shape : Shape c good s l r.1 r.2

/-- Characters other than braces. -/
def notBrace (c : Char) : Bool :=
  c ≠ '{' && c ≠ '}'

/-- Texts that can be respelled, respelled texts, and texts that may stand in the output. -/
structure Discipline (c : Conversion) (fails : Fault → Prop) (fine spelled good : Text → Prop) :
    Prop where
  expression : ∀ known t, fine t → Meets fails spelled (c.expression known t)
  part : ∀ t u, fine t → u <:+: t → fine u
  raised : ∀ t, fine t → fine (raisedError c t)
  subset : ∀ t u : Text, spelled t → u ⊆ t → spelled u
  of_fine : ∀ t, fine t → good t
  of_spelled : ∀ t, spelled t → good t
  append : ∀ t u, good t → good u → good (t ++ u)
  /-- A text without braces passes for a respelled one. -/
  plain : ∀ t : Text, t.all notBrace = true → spelled t
  /-- The empty object. -/
  empty : good "{}"
  type : ∀ t, fine t → good (TypeName.typescript t)
  collection : ∀ t, spelled t → good (Expression.ToJava.collection t)

variable {c : Conversion} {fails : Fault → Prop} {fine spelled good : Text → Prop} {s : State}
    {l : Classified}

/-- A quiet change before a line does not show. -/
theorem Outcome.of_quiet {t : State} {r : State × Code} (hquiet : Quiet s t)
    (h : Outcome c good t l r) : Outcome c good s l r where
  frame := hquiet.toFrame.trans h.frame
  classNames := by
    rw [← hquiet.classNames]
    exact h.classNames
  memory := fun hjava => by
    obtain ⟨hclasses, hfunctions, hplaces⟩ := h.memory hjava
    refine ⟨by rw [hclasses, hquiet.classNames], by rw [hfunctions, hquiet.untyped], fun i hi => ?_⟩
    rcases hplaces i hi with hold | hnew
    · exact .inl (hquiet.places i hold)
    · rw [hquiet.output] at hnew
      exact .inr hnew
  shape := by
    obtain ⟨after, code⟩ := r
    cases h.shape with
    | plain hkind hpending hgood => exact .plain hkind (hpending.trans hquiet.pendingScope) hgood
    | silent hkind hpending => exact .silent hkind hpending
    | opening hkind hpending hscope htext hgood hrest =>
        exact .opening hkind hpending hscope htext hgood hrest
    | continued hkind hpending hgood => exact .continued hkind hpending hgood
    | loose hphp hkind hpending hexpression hends =>
      rw [hquiet.brackets] at hends
      have hterminate : ∀ text, t.terminate text = s.terminate text := fun text => by
        simp only [State.terminate, hquiet.brackets]
      rw [hterminate]
      exact .loose hphp hkind hpending hexpression hends

theorem Outcome.stay {code : Code} (hpending : s.pendingScope = none)
    (hkind : isContinuation l.kind = false)
    (hcode : ∀ t, code.text? = some t → good t) : Outcome c good s l (s, code) where
  frame := .rfl
  classNames := fun _ hname => .inl hname
  memory := fun _ => ⟨by simp [hpending], by simp [hpending], fun _ hi => .inl hi⟩
  shape := .plain hkind rfl hcode

variable {t u text : Text} {names : List Text}

theorem Outcome.line (hpending : s.pendingScope = none) (hkind : isContinuation l.kind = false)
    (htext : good text) : Outcome c good s l (s, .line text) :=
  .stay hpending hkind fun t ht => by
    obtain rfl : text = t := Option.some.inj ht
    exact htext

theorem Outcome.header {scope : Scope} (hkind : isContinuation l.kind = false)
    (hscope : scope ≠ .silent ∧ scope ≠ .module) (hjava : c = .toJava → scope = .block)
    (htext : good text) (hnil : good []) : Outcome c good s l (header s text scope names) where
  frame := ⟨rfl, rfl, rfl, rfl, rfl, rfl, rfl, rfl, rfl⟩
  classNames := fun _ hname => .inl hname
  memory := fun h => by
    obtain rfl := hjava h
    exact ⟨rfl, rfl, fun _ hi => .inl hi⟩
  shape := .opening hkind rfl hscope (by rw [append_nil]; rfl) htext hnil

theorem Outcome.continued (hkind : isContinuation l.kind = true)
    (htext : good text) : Outcome c good s l (Indent.header s ("\x7d " ++ text) .block names) where
  frame := ⟨rfl, rfl, rfl, rfl, rfl, rfl, rfl, rfl, rfl⟩
  classNames := fun _ hname => .inl hname
  memory := fun _ => ⟨rfl, rfl, fun _ hi => .inl hi⟩
  shape := .continued hkind rfl htext

namespace Discipline

variable (h : Discipline c fails fine spelled good)

include h

theorem fixed (ht : t.all notBrace = true) : good t := h.of_spelled t (h.plain t ht)

theorem nil : good [] := h.fixed rfl

section

variable (ht : good t)

include ht

theorem both (hu : good u) : good (t ++ u) := h.append t u ht hu

theorem prefixed (ha : a.all notBrace = true) : good (a ++ t) :=
  h.both (h.fixed ha) ht

theorem suffixed (ha : a.all notBrace = true) : good (t ++ a) :=
  h.both ht (h.fixed ha)

theorem spliced (hu : good u) (ha : a.all notBrace = true) : good (t ++ a ++ u) :=
  h.both (h.suffixed ht ha) hu

theorem surround {b : Text} (ha : a.all notBrace = true)
    (hb : b.all notBrace = true) : good (a ++ t ++ b) :=
  h.suffixed (h.prefixed ht ha) hb

end

theorem good_part (ht : fine t) (hu : u <:+: t) : good u := h.of_fine u (h.part t u ht hu)

theorem respell (s : State) (ht : fine t) (hu : u <:+: t) :
    Meets fails spelled (s.expression c u) :=
  h.expression _ u (h.part t u ht hu)

theorem terminate (ht : good text) : good (s.terminate text) := by
  simp only [State.terminate]
  split
  · exact ht
  · exact h.suffixed ht rfl

theorem join {sep : Text} {pieces : List Text} (hsep : good sep) (hpieces : ∀ p ∈ pieces, good p) :
    good (Text.join sep pieces) := by
  induction pieces with
  | nil =>
    rw [join_nil]
    exact h.nil
  | cons p pieces ih =>
    have hp := hpieces p mem_cons_self
    cases pieces with
    | nil =>
      rw [join_singleton]
      exact hp
    | cons q pieces =>
      rw [join_cons_cons]
      refine h.both hp (h.both hsep (ih fun x hx => hpieces x (mem_cons_of_mem _ hx)))

theorem meets_condition (s : State) (ht : fine t) (hu : u <:+: t) :
    Meets fails good (s.condition c u) := by
  simp only [State.condition]
  refine (h.respell s ht hu).bind fun out hout => ?_
  have hgood := h.of_spelled out hout
  refine .either (.ok hgood) (.ok ?_)
  exact h.surround hgood rfl rfl

theorem meets_generic (hpending : s.pendingScope = none) (hkind : isContinuation l.kind = false)
    (hline : fine l.line) : Meets fails (Outcome c good s l) (generic c s l.line) := by
  simp only [generic]
  refine (h.respell s hline infix_rfl).bind fun out hout => ?_
  refine .either (.ok ?_) (.ok ?_)
  · refine .header hkind (by decide) (fun _ => rfl) (h.of_spelled _ (h.subset out _ hout ?_)) h.nil
    exact ((stripEnd_isPrefix _).isInfix.trans (dropLast_isInfix _)).subset
  · exact .line hpending hkind (h.terminate (h.of_spelled out hout))

end Discipline

end CodeConverter.Indent
