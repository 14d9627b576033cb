import CodeConverter.Line.Machine

/-!
# Computations that may fail

`Meets fails post x` says that the computation `x` fails only in the ways `fails` lists and that
its result otherwise has the property `post`. With no failure listed it says that there is such a
result, and with every failure listed it speaks about the result only if there is one. The lemmas
follow the way computations are put together.
-/

namespace CodeConverter

open List

/-- The computation gives a result with the property or fails in one of the listed ways. -/
inductive Meets {ε α : Type} (fails : ε → Prop) (post : α → Prop) : Except ε α → Prop
  | ok {a : α} : post a → Meets fails post (.ok a)
  | error {e : ε} : fails e → Meets fails post (.error e)

/-- Whatever result the computation gives has the property. -/
abbrev Yields {ε α : Type} (post : α → Prop) (x : Except ε α) : Prop :=
  Meets (fun _ => True) post x

namespace Meets

variable {ε α β : Type} {fails fails' : ε → Prop} {post post' : α → Prop}

/-- A computation that cannot fail has a result. -/
theorem exists_ok {x : Except ε α} (h : Meets (fun _ => False) post x) :
    ∃ a, x = .ok a ∧ post a := by
  cases h with
  | ok ha => exact ⟨_, rfl, ha⟩
  | error he => exact he.elim

theorem of_ok {a : α} (h : Meets fails post (.ok a)) : post a := by
  cases h with
  | ok ha => exact ha

theorem of_error {e : ε} (h : Meets fails post (.error e)) : fails e := by
  cases h with
  | error he => exact he

theorem mono {x : Except ε α} (h : Meets fails post x) (hfails : ∀ e, fails e → fails' e)
    (hpost : ∀ a, post a → post' a) : Meets fails' post' x := by
  cases h with
  | ok ha => exact .ok (hpost _ ha)
  | error he => exact .error (hfails _ he)

theorem imp {x : Except ε α} (h : Meets fails post x) (hpost : ∀ a, post a → post' a) :
    Meets fails post' x :=
  h.mono (fun _ he => he) hpost

theorem remember {x : Except ε α} (h : Meets fails post x) :
    Meets fails (fun a => x = .ok a ∧ post a) x := by
  cases h with
  | ok ha => exact .ok ⟨rfl, ha⟩
  | error he => exact .error he

theorem and {x : Except ε α} (h : Meets fails post x) (h' : Meets fails' post' x) :
    Meets fails (fun a => post a ∧ post' a) x := by
  cases h with
  | ok ha => exact .ok ⟨ha, h'.of_ok⟩
  | error he => exact .error he

/-- Computations one after another. -/
theorem bind {post : β → Prop} {mid : α → Prop} {x : Except ε α} {f : α → Except ε β}
    (hx : Meets fails mid x) (hf : ∀ a, mid a → Meets fails post (f a)) :
    Meets fails post (x >>= f) := by
  cases hx with
  | ok ha => exact hf _ ha
  | error he => exact .error he

theorem map {post : β → Prop} {x : Except ε α} {f : α → β}
    (hx : Meets fails (fun a => post (f a)) x) : Meets fails post (f <$> x) := by
  cases hx with
  | ok ha => exact .ok ha
  | error he => exact .error he

theorem ite {p : Prop} [Decidable p] {x y : Except ε α} (hx : p → Meets fails post x)
    (hy : ¬ p → Meets fails post y) : Meets fails post (if p then x else y) := by
  by_cases h : p
  · rw [if_pos h]
    exact hx h
  · rw [if_neg h]
    exact hy h

theorem either {p : Prop} [Decidable p] {x y : Except ε α} (hx : Meets fails post x)
    (hy : Meets fails post y) : Meets fails post (if p then x else y) :=
  .ite (fun _ => hx) fun _ => hy

theorem mapM {post : β → Prop} {f : α → Except ε β} {l : List α}
    (h : ∀ a ∈ l, Meets fails post (f a)) :
    Meets fails (fun bs => ∀ b ∈ bs, post b) (l.mapM f) := by
  induction l with
  | nil => exact .ok (by simp)
  | cons a l ih =>
    rw [mapM_cons]
    refine (h a mem_cons_self).bind fun b hb => ?_
    refine (ih fun x hx => h x (mem_cons_of_mem _ hx)).bind fun bs hbs => ?_
    exact .ok (forall_mem_cons.mpr ⟨hb, hbs⟩)

/-- An invariant of each step is an invariant of the loop. -/
theorem foldlM {inv : β → Prop} {f : β → α → Except ε β} {l : List α} {b : β} (hb : inv b)
    (hstep : ∀ b a, a ∈ l → inv b → Meets fails inv (f b a)) : Meets fails inv (l.foldlM f b) := by
  induction l generalizing b with
  | nil => exact .ok hb
  | cons a l ih =>
    rw [foldlM_cons]
    refine (hstep b a mem_cons_self hb).bind fun b' hb' => ?_
    exact ih hb' fun b a ha => hstep b a (mem_cons_of_mem _ ha)

end Meets

theorem meets_true {ε α : Type} (x : Except ε α) : Meets (fun _ => True) (fun _ => True) x := by
  cases x with
  | error => exact .error trivial
  | ok => exact .ok trivial

theorem exists_of_bind {ε α β : Type} {x : Except ε α} {f : α → Except ε β} {b : β}
    (h : (x >>= f) = .ok b) : ∃ a, x = .ok a ∧ f a = .ok b := by
  cases x with
  | error => cases h
  | ok a => exact ⟨a, rfl, h⟩

theorem bind_of_ok {ε α β : Type} {x : Except ε α} {f : α → Except ε β} {a : α} {r : Except ε β}
    (hx : x = .ok a) (hf : f a = r) : (x >>= f) = r := by
  rw [hx]
  exact hf

/-- A loop over one list and then another goes on from where the first ended. -/
theorem foldlM_of_ok {ε α σ : Type} {f : σ → α → Except ε σ} {l more : List α} {s t : σ}
    {r : Except ε σ} (h : l.foldlM f s = .ok t) (hmore : more.foldlM f t = r) :
    (l ++ more).foldlM f s = r := by
  rw [foldlM_append]
  exact bind_of_ok h hmore

theorem meets_innermost {α : Type} {fails : Fault → Prop} {l : List α} (h : l ≠ []) :
    Meets fails (fun a => l.head? = some a) (innermost l) := by
  cases l with
  | nil => exact absurd rfl h
  | cons a l => exact .ok rfl

theorem meets_popped {α : Type} {fails : Fault → Prop} {l : List α} (h : l ≠ []) :
    Meets fails (fun rest => rest = l.tail) (popped l) := by
  cases l with
  | nil => exact absurd rfl h
  | cons a l => exact .ok rfl

namespace LineMachine

variable {σ : Type} {m : LineMachine σ} {fails : Fault → Prop}

theorem run_concat (before : List Text) (line : Text) :
    m.run (before ++ [line]) = m.run before >>= fun s => m.visit s line := by
  simp only [LineMachine.run, foldlM_append, foldlM_cons, foldlM_nil, bind_pure]

/-- What each visit keeps holds after the lines. -/
theorem meets_run {inv : σ → Prop} {lines : List Text} (hinitial : inv m.initial)
    (hvisit : ∀ s line, line ∈ lines → inv s → Meets fails inv (m.visit s line)) :
    Meets fails inv (m.run lines) :=
  Meets.foldlM hinitial hvisit

/-- The output of the last state is the text. -/
theorem meets_convert {inv : σ → Prop} {post : Text → Prop} {source : Text}
    (hrun : Meets fails inv (m.run (Text.lines source)))
    (hfinish : ∀ s, inv s →
    Meets fails (fun last => post (Text.unlines (m.output last).toList)) (m.finish s)) :
    Meets fails post (m.convert source) :=
  hrun.bind fun s hs => (hfinish s hs).bind fun _ hlast => .ok hlast

end LineMachine

end CodeConverter
