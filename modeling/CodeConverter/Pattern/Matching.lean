import CodeConverter.Pattern.Basic

/-!
# Matching

`Pattern.run` searches the ways to match a pattern for one that a continuation accepts, without
listing them. It carries an outlook: a condition on the character after a place that must hold if
the continuation is to accept the place. Runs of characters stop only at places that the outlook
allows. `run_eq_findSome?` says that the search finds the first outcome that the continuation
accepts.
-/

namespace CodeConverter.Pattern

open State

/-- A condition on what follows a place: whether the text may end there, and which characters may
come next. -/
structure Outlook where
  atEnd : Bool
  allows : Char → Bool

namespace Outlook

/-- The condition that always holds. -/
def any : Outlook :=
  ⟨true, fun _ => true⟩

/-- The condition that always holds, at hand when a pattern is matched. -/
def always : Thunk Outlook :=
  .pure any

/-- The condition that one of two conditions holds. -/
def or (a b : Outlook) : Outlook :=
  ⟨a.atEnd || b.atEnd, fun c => a.allows c || b.allows c⟩

/-- The condition that two conditions hold. -/
def and (a b : Outlook) : Outlook :=
  ⟨a.atEnd && b.atEnd, fun c => a.allows c && b.allows c⟩

/-- Whether the outlook allows a place. -/
def holds (o : Outlook) (s : State) : Bool :=
  match s.ahead with
  | [] => o.atEnd
  | c :: _ => o.allows c

/-- One of two conditions holds at a place. -/
theorem holds_or (a b : Outlook) (s : State) : (a.or b).holds s = (a.holds s || b.holds s) := by
  simp only [holds]
  split <;> rfl

/-- Two conditions hold at a place. -/
theorem holds_and (a b : Outlook) (s : State) : (a.and b).holds s = (a.holds s && b.holds s) := by
  simp only [holds]
  split <;> rfl

/-- The condition holds wherever the continuation accepts. -/
def Covers (o : Outlook) (next : State → Option State) : Prop :=
  ∀ s : State, o.holds s = false → next s = none

/-- The condition that always holds covers every continuation. -/
theorem any_covers (next : State → Option State) : any.Covers next := by
  intro s h
  simp only [holds, any] at h
  split at h <;> cases h

end Outlook

/-- The outlook of a pattern followed by something with the outlook `after`. -/
def outlook : Pattern → Outlook → Outlook
  | .empty, after => after
  | .literal [], after => after
  | .literal (c :: _), _ => ⟨false, fun d => d = c⟩
  | .char set, _ => ⟨false, set⟩
  | .chars set _, after => .or ⟨false, set⟩ after
  | .seq p q, after => p.outlook (q.outlook after)
  | .alt p q, after => (p.outlook after).or (q.outlook after)
  | .star p, after => (p.outlook .any).or after
  | .group _ p, after => p.outlook after
  | .again _, _ => .any
  | .ahead p, after => (p.outlook .any).and after
  | .notAhead _, after => after
  | .behind _, after => after
  | .notBehind _, after => after
  | .atStart, after => after
  | .atEnd, after => .and ⟨true, fun c => c = '\n'⟩ after
  | .wordEdge, after => after

/-- The places reached over characters of a class where the outlook holds, the farthest first, in
front of `near`. -/
def allowed (set : Char → Bool) (after : Outlook) : Text → State → List State → List State
  | [], s, near => if after.atEnd then s :: near else near
  | c :: rest, s, near =>
    let near := if after.allows c then s :: near else near
    if set c then allowed set after rest (s.advance c rest) near else near

/-- Searches over runs of characters of a class that end where the outlook holds, shorter runs
first. -/
def fewest (set : Char → Bool) (after : Outlook) (next : State → Option State) :
    Text → State → Option State
  | [], s => if after.atEnd then next s else none
  | c :: rest, s =>
    match if after.allows c then next s else none with
    | some result => some result
    | none => if set c then fewest set after next rest (s.advance c rest) else none

/-- Searches over at most as many nonempty rounds as there are characters in the first text, more
rounds first. -/
def repeatRun (step : State → (State → Option State) → Option State)
    (next : State → Option State) : Text → State → Option State
  | [], s => next s
  | _ :: fuel, s =>
    match step s fun t => if s.index < t.index then repeatRun step next fuel t else none with
    | some result => some result
    | none => next s

/-- Matches a pattern at a place and gives the first answer of `next` at a place reached. The
outlook of `next` is computed only where a run of characters asks for it. -/
def run : Pattern → Thunk Outlook → State → (State → Option State) → Option State
  | .empty, _, s, next => next s
  | .literal t, _, s, next => (s.eat t).bind next
  | .char set, _, s, next =>
    match s.ahead with
    | [] => none
    | c :: rest => if set c then next (s.advance c rest) else none
  | .chars set true, after, s, next => (allowed set after.get s.ahead s []).findSome? next
  | .chars set false, after, s, next => fewest set after.get next s.ahead s
  | .seq p q, after, s, next => p.run ⟨fun _ => q.outlook after.get⟩ s fun t => q.run after t next
  | .alt p q, after, s, next =>
    match p.run after s next with
    | some result => some result
    | none => q.run after s next
  | .star p, _, s, next => repeatRun (fun t k => p.run Outlook.always t k) next s.ahead s
  | .group n p, after, s, next => p.run after s fun t => next (t.remember n s)
  | .again n, _, s, next =>
    match s.captures.lookup n with
    | none => none
    | some capture => (s.eat capture.text).bind next
  | .ahead p, _, s, next => if (p.run Outlook.always s some).isSome then next s else none
  | .notAhead p, _, s, next => if (p.run Outlook.always s some).isSome then none else next s
  | .behind set, _, s, next => if s.before.any set then next s else none
  | .notBehind set, _, s, next => if s.before.any set then none else next s
  | .atStart, _, s, next => if s.index = 0 then next s else none
  | .atEnd, _, s, next => if s.isEnd then next s else none
  | .wordEdge, _, s, next => if s.isWordEdge then next s else none

/-- Searching a list of one place is asking the continuation. -/
theorem findSome?_singleton (s : State) (next : State → Option State) :
    [s].findSome? next = next s := by
  simp only [List.findSome?_cons, List.findSome?_nil]
  cases next s <;> rfl

/-- Searching an optional continuation is searching the list of its one or no element. -/
theorem bind_eq_findSome? (found : Option State) (next : State → Option State) :
    found.bind next = found.toList.findSome? next := by
  cases found with
  | none => rfl
  | some s => exact (findSome?_singleton s next).symm

/-- Searching after branching at each candidate is searching the branches of each candidate. -/
theorem findSome?_flatMap (f : State → List State) (next : State → Option State) (l : List State) :
    (l.flatMap f).findSome? next = l.findSome? fun s => (f s).findSome? next := by
  induction l with
  | nil => rfl
  | cons s l ih =>
    simp only [List.flatMap_cons, List.findSome?_append, List.findSome?_cons, ih]
    cases (f s).findSome? next <;> rfl

/-- A candidate list is empty exactly when searching it for anything finds nothing. -/
theorem isSome_findSome?_some (l : List State) : (l.findSome? some).isSome = !l.isEmpty := by
  cases l <;> rfl

/-- The places already passed stay behind the ones still to be reached. -/
theorem State.stretch_append (set : Char → Bool) (rest : Text) (s : State) (near : List State) :
    stretch set rest s near = stretch set rest s [] ++ near := by
  induction rest generalizing s near with
  | nil => rfl
  | cons c rest ih =>
    unfold stretch
    split
    · rw [ih _ (s :: near), ih _ [s]]
      simp
    · rfl

/-- Only places that the outlook allows have to be searched. -/
theorem findSome?_allowed (set : Char → Bool) {after : Outlook} {next : State → Option State}
    (h : after.Covers next) (s : State) (near skipped : List State)
    (hnear : near.findSome? next = skipped.findSome? next) :
    (allowed set after s.ahead s near).findSome? next =
      (stretch set s.ahead s skipped).findSome? next := by
  generalize hrest : s.ahead = rest
  induction rest generalizing s near skipped with
  | nil =>
    simp only [allowed, stretch]
    split
    · simp only [List.findSome?_cons, hnear]
    · rename_i refused
      have none_here : next s = none := h s (by simpa [Outlook.holds, hrest] using refused)
      simp only [List.findSome?_cons, none_here, hnear]
  | cons c rest ih =>
    have passed : (if after.allows c then s :: near else near).findSome? next =
        (s :: skipped).findSome? next := by
      split
      · simp only [List.findSome?_cons, hnear]
      · rename_i refused
        have none_here : next s = none := h s (by simpa [Outlook.holds, hrest] using refused)
        simp only [List.findSome?_cons, none_here, hnear]
    simp only [allowed, stretch]
    split
    · exact ih (s.advance c rest) _ _ passed rfl
    · exact passed

/-- Searching shorter runs first is searching the places reached in reverse order. -/
theorem fewest_eq_findSome? (set : Char → Bool) {after : Outlook} {next : State → Option State}
    (h : after.Covers next) (s : State) :
    fewest set after next s.ahead s = (stretch set s.ahead s []).reverse.findSome? next := by
  generalize hrest : s.ahead = rest
  induction rest generalizing s with
  | nil =>
    simp only [fewest, stretch, List.reverse_singleton, findSome?_singleton]
    split
    · rfl
    · rename_i refused
      exact (h s (by simpa [Outlook.holds, hrest] using refused)).symm
  | cons c rest ih =>
    have here : (if after.allows c then next s else none) = next s := by
      split
      · rfl
      · rename_i refused
        exact (h s (by simpa [Outlook.holds, hrest] using refused)).symm
    simp only [fewest, stretch, here]
    split
    · rename_i result found
      split
      · rw [stretch_append]
        simp [found]
      · simp [found]
    · rename_i found
      split
      · rw [stretch_append, ih (s.advance c rest) rfl]
        simp [found]
      · simp [found]

/-- Searching over repeated rounds is searching the list of places they reach. -/
theorem repeatRun_eq_findSome? {step : State → (State → Option State) → Option State}
    {list : State → List State}
    (h : ∀ s next, step s next = (list s).findSome? next)
    (next : State → Option State) (fuel : Text) (s : State) :
    repeatRun step next fuel s = (repeatOutcomes list fuel s).findSome? next := by
  induction fuel generalizing s with
  | nil =>
    simp only [repeatRun, repeatOutcomes, findSome?_singleton]
  | cons _ fuel ih =>
    simp only [repeatRun, repeatOutcomes, List.findSome?_append, findSome?_singleton, h,
      findSome?_flatMap]
    have agree : (fun t : State => if s.index < t.index then repeatRun step next fuel t else none) =
        fun t => (if s.index < t.index then repeatOutcomes list fuel t else []).findSome? next := by
      funext t
      split
      · exact ih t
      · rfl
    rw [agree]
    cases (list s).findSome? _ with
    | some result => rfl
    | none => rfl

/-- A run of characters of a class ends at once if none of the class follows. -/
theorem State.stretch_eq_singleton {set : Char → Bool} {s : State}
    (h : Outlook.holds ⟨false, set⟩ s = false) : stretch set s.ahead s [] = [s] := by
  cases hahead : s.ahead with
  | nil => rfl
  | cons c rest =>
    have outside : set c = false := by simpa [Outlook.holds, hahead] using h
    simp [stretch, outside]

/-- The outlook of a pattern allows every place where the pattern matches and its continuation
accepts. -/
theorem outlook_covers (p : Pattern) {after : Outlook} {next : State → Option State}
    (h : after.Covers next) : (p.outlook after).Covers fun s => (p.outcomes s).findSome? next := by
  induction p generalizing after next with
  | empty => exact fun s hs => (findSome?_singleton s next).trans (h s hs)
  | literal t =>
    intro s hs
    cases t with
    | nil => exact (findSome?_singleton s next).trans (h s hs)
    | cons c t =>
      simp only [outcomes, eat]
      cases hahead : s.ahead with
      | nil => rfl
      | cons d rest =>
        have differ : ¬ c = d := by
          intro same
          simp [outlook, Outlook.holds, hahead, same] at hs
        simp [differ]
  | char set =>
    intro s hs
    simp only [outcomes]
    cases hahead : s.ahead with
    | nil => rfl
    | cons c rest =>
      have outside : set c = false := by simpa [outlook, Outlook.holds, hahead] using hs
      simp [outside]
  | chars set greedy =>
    intro s hs
    simp only [outlook, Outlook.holds_or, Bool.or_eq_false_iff] at hs
    have here := h s hs.2
    cases greedy <;>
      simp only [outcomes, stretch_eq_singleton hs.1, List.reverse_singleton,
        findSome?_singleton, here]
  | seq p q ihp ihq =>
    intro s hs
    simp only [outcomes, findSome?_flatMap]
    exact ihp (ihq h) s hs
  | alt p q ihp ihq =>
    intro s hs
    simp only [outlook, Outlook.holds_or, Bool.or_eq_false_iff] at hs
    simp only [outcomes, List.findSome?_append, ihp h s hs.1, ihq h s hs.2, Option.none_or]
  | star p ih =>
    intro s hs
    simp only [outlook, Outlook.holds_or, Bool.or_eq_false_iff] at hs
    have here := h s hs.2
    simp only [outcomes]
    generalize s.ahead = fuel
    cases fuel with
    | nil => simp only [repeatOutcomes, findSome?_singleton, here]
    | cons c fuel =>
      simp only [repeatOutcomes, List.findSome?_append, findSome?_flatMap,
        findSome?_singleton, here, ih (Outlook.any_covers _) s hs.1, Option.none_or]
  | group n p ih =>
    intro s hs
    simp only [outcomes, List.findSome?_map]
    exact ih (fun t ht => h (t.remember n s) ht) s hs
  | again n =>
    exact Outlook.any_covers _
  | ahead p ih =>
    intro s hs
    simp only [outlook, Outlook.holds_and, Bool.and_eq_false_iff] at hs
    simp only [outcomes]
    rcases hs with hs | hs
    · have nothing : (p.outcomes s).findSome? some = none := ih (Outlook.any_covers some) s hs
      have empty := isSome_findSome?_some (p.outcomes s)
      rw [nothing] at empty
      have isEmpty : (p.outcomes s).isEmpty = true := by simpa using empty.symm
      simp [isEmpty]
    · have here := h s hs
      split
      · rfl
      · simp only [findSome?_singleton, here]
  | notAhead | behind | atStart | wordEdge =>
    intro s hs
    have here := h s hs
    simp only [outcomes]
    split
    · simp only [findSome?_singleton, here]
    · rfl
  | notBehind set =>
    intro s hs
    have here := h s hs
    simp only [outcomes]
    split
    · rfl
    · simp only [findSome?_singleton, here]
  | atEnd =>
    intro s hs
    simp only [outlook, Outlook.holds_and, Bool.and_eq_false_iff] at hs
    simp only [outcomes]
    rcases hs with hs | hs
    · have inside : s.isEnd = false := by
        cases hahead : s.ahead with
        | nil => simp [Outlook.holds, hahead] at hs
        | cons c rest =>
          have other : ¬ c = '\n' := by simpa [Outlook.holds, hahead] using hs
          simp [isEnd, hahead, other]
      simp [inside]
    · have here := h s hs
      split
      · simp only [findSome?_singleton, here]
      · rfl

/-- Matching finds the first outcome that the continuation accepts. -/
theorem run_eq_findSome? (p : Pattern) {after : Thunk Outlook} {next : State → Option State}
    (h : after.get.Covers next) (s : State) :
    p.run after s next = (p.outcomes s).findSome? next := by
  induction p generalizing after next s with
  | empty => exact (findSome?_singleton s next).symm
  | literal t => exact bind_eq_findSome? _ _
  | char set =>
    simp only [run, outcomes]
    cases s.ahead with
    | nil => rfl
    | cons c rest =>
      simp only
      split
      · rw [findSome?_singleton]
      · rfl
  | chars set greedy =>
    cases greedy with
    | true => exact findSome?_allowed set h s [] [] rfl
    | false => exact fewest_eq_findSome? set h s
  | seq p q ihp ihq =>
    have second : (fun t => q.run after t next) = fun t => (q.outcomes t).findSome? next :=
      funext fun t => ihq h t
    simp only [run, outcomes, findSome?_flatMap, second]
    exact @ihp ⟨fun _ => q.outlook after.get⟩ _ (outlook_covers q h) s
  | alt p q ihp ihq =>
    simp only [run, outcomes, ihp h, ihq h, List.findSome?_append]
    cases (p.outcomes s).findSome? next <;> rfl
  | star p ih =>
    exact repeatRun_eq_findSome? (fun t k => @ih Outlook.always k (Outlook.any_covers k) t)
      next s.ahead s
  | group n p ih =>
    simp only [run, outcomes, List.findSome?_map]
    exact ih (fun t ht => h (t.remember n s) ht) s
  | again n =>
    simp only [run, outcomes]
    cases s.captures.lookup n with
    | none => rfl
    | some capture => exact bind_eq_findSome? _ _
  | ahead p ih =>
    have inner : p.run Outlook.always s some = (p.outcomes s).findSome? some :=
      @ih Outlook.always some (Outlook.any_covers some) s
    simp only [run, outcomes, inner, isSome_findSome?_some]
    cases p.outcomes s with
    | nil => rfl
    | cons t l =>
      simp only [List.isEmpty_cons, Bool.not_false, if_true, Bool.false_eq_true, if_false,
        findSome?_singleton]
  | notAhead p ih =>
    have inner : p.run Outlook.always s some = (p.outcomes s).findSome? some :=
      @ih Outlook.always some (Outlook.any_covers some) s
    simp only [run, outcomes, inner, isSome_findSome?_some]
    cases p.outcomes s with
    | nil =>
      simp only [List.isEmpty_nil, Bool.not_true, if_true, Bool.false_eq_true, if_false,
        findSome?_singleton]
    | cons t l => rfl
  | behind | atStart | atEnd | wordEdge =>
    simp only [run, outcomes]
    split
    · rw [findSome?_singleton]
    · rfl
  | notBehind set =>
    simp only [run, outcomes]
    split
    · rfl
    · rw [findSome?_singleton]

end CodeConverter.Pattern
