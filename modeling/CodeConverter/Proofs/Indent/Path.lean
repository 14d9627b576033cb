import CodeConverter.Proofs.Indent.Layout
import CodeConverter.Proofs.Indent.Line

/-!
# The path to a line

The stack of widths names the blocks around the line at hand. Blocks that are still open behind it
are closed by the next line, so the output is known up to their braces, and the brace of a block
that is continued is folded into the continuation.
-/

namespace CodeConverter.Indent

open Text Program List Bool Grammar.Python

variable {w v n : Nat} {ws inner : List Nat} {s : State} {t lead text : Text} {out : List Text}
    {scope : Scope}

/-- A line of code settles which blocks are open and is then visited. -/
theorem visitLine_code (hcode : IsCode t) (hlead : Lead w lead) (hcomment : s.inComment = false)
    (hbrackets : s.brackets = 0) (c : Conversion) :
    visitLine c s (lead ++ t) = settleBlocks c { s with hasContent := true } w >>= fun s =>
      written c none (classify all t) <$>
        visit c { s with brackets := 0 } (classify all t) := by
  have hstrip : strip (lead ++ t) = t := by
    have hblank : ∀ c ∈ lead, isBlank c = true := by
      intro c hc
      rcases hlead.blank c hc with rfl | rfl <;> decide
    have hparts := strip_append hblank hcode.stripped (forall_mem_nil _)
    rwa [append_nil] at hparts
  have hsplit : splitComment t = (t, none) := by
    rw [splitComment, cutComment_eq_none hcode.note hcode.quotes]
  obtain ⟨first, rest, rfl⟩ := exists_cons_of_ne_nil hcode.nonempty
  have hnote : startsWith (first :: rest) "#" = false := by
    have hfirst : first ≠ '#' := fun h => hcode.note (h ▸ mem_cons_self)
    simp [startsWith, isPrefixOf, Ne.symm hfirst]
  have hstarts : startsComment (first :: rest) = false := by
    have hquote := hcode.quotes first mem_cons_self
    simp only [Literal.isPlainQuote, or_eq_false_iff, decide_eq_false_iff_not] at hquote
    simp [startsComment, startsWith, isPrefixOf, Ne.symm hquote.1, Ne.symm hquote.2]
  rw [visitLine, hstrip, width_lead hlead (strip_eq_self_iff.mp hcode.stripped).1]
  simp only [isEmpty_cons, hcomment, hbrackets, hnote, hstarts, codeLine_eq, classified, counted,
    hsplit, hcode.balanced]
  rfl

/-- A block that is written with braces and whose functions are no methods. -/
def isOrdinaryScope (scope : Scope) : Bool :=
  scope ≠ .silent && scope ≠ .classBody

/-- The open blocks have the given widths, the innermost first, and the given lines are written. -/
structure At (columns : List Nat) (out : List Text) (s : State) : Prop where
  widths : s.widths = columns
  scopes : s.scopes.length = columns.length
  names : s.names.length = columns.length
  ordinary : ∀ scope ∈ s.scopes, isOrdinaryScope scope = true
  output : s.output.toList = out
  comment : s.inComment = false
  brackets : s.brackets = 0

theorem At.depth (h : At (w :: ws) out s) : s.depth = ws.length := by
  have hall : s.scopes.dropLast.filter (· ≠ .silent) = s.scopes.dropLast := by
    refine filter_eq_self.mpr fun scope hscope => ?_
    have hordinary := h.ordinary scope (dropLast_subset _ hscope)
    exact (and_eq_true_iff.mp hordinary).1
  rw [State.depth, hall, length_dropLast, h.scopes]
  rfl

theorem At.emit (h : At (w :: ws) out s) (hne : t ≠ []) (hline : '\n' ∉ t) :
    At (w :: ws) (out ++ [lineAt 2 ws.length t]) (s.emit .toJavaScript s.depth (.line t)) where
  widths := h.widths
  scopes := h.scopes
  names := h.names
  ordinary := h.ordinary
  output := by
    rw [h.depth, ← h.output]
    exact toList_emit_line 2 ws.length s.output hne hline
  comment := h.comment
  brackets := h.brackets

/-- Closing a block writes its brace. -/
theorem At.pop (h : At (w :: v :: ws) out s) :
    ∃ t, s.pop .toJavaScript = .ok t ∧ At (v :: ws) (out ++ [lineAt 2 ws.length "\x7d"]) t ∧
      t.closed = s.closed + 1 ∧ t.pendingScope = s.pendingScope := by
  obtain ⟨hwidths, hscopes, hnames, hordinary, hout, hcomment, hbrackets⟩ := h
  obtain ⟨scope, scopes, hscope⟩ :=
    exists_cons_of_length_pos (l := s.scopes) (by rw [hscopes]; simp)
  obtain ⟨bound, names, hname⟩ := exists_cons_of_length_pos (l := s.names) (by rw [hnames]; simp)
  rw [hscope, length_cons, length_cons, Nat.succ_inj] at hscopes
  rw [hname, length_cons, length_cons, Nat.succ_inj] at hnames
  rw [hscope] at hordinary
  let rest : State := { s with widths := v :: ws, scopes := scopes, names := names }
  have hrest : At (v :: ws) out rest :=
    ⟨rfl, hscopes, hnames, fun sc hsc => hordinary sc (mem_cons_of_mem _ hsc), hout, hcomment,
      hbrackets⟩
  have hsilent : scope ≠ .silent :=
    of_decide_eq_true (and_eq_true_iff.mp (hordinary scope mem_cons_self)).1
  refine ⟨{ rest.emit .toJavaScript rest.depth (.line "\x7d") with closed := s.closed + 1 }, ?_,
    ?_, rfl, rfl⟩
  · have hclosing : rest.writeClosing .toJavaScript scope = _ := if_neg hsilent
    rw [State.pop, hscope, hname, hwidths]
    show (rest.writeClosing .toJavaScript scope).leave .toJavaScript scope = _
    rw [hclosing]
    rfl
  · have hwritten := hrest.emit (t := "\x7d".toList) (by decide) (by decide)
    exact ⟨hwritten.widths, hwritten.scopes, hwritten.names, hwritten.ordinary, hwritten.output,
      hwritten.comment, hwritten.brackets⟩

/-- The braces of some blocks, the outermost of them at the given depth. -/
def closers : Nat → Nat → List Text
  | 0, _ => []
  | n + 1, depth => lineAt 2 (depth + n) "\x7d" :: closers n depth

theorem closers_succ (n depth : Nat) :
    closers (n + 1) depth = closers n (depth + 1) ++ [lineAt 2 depth "\x7d"] := by
  induction n with
  | zero => rfl
  | succ n ih =>
    rw [closers, ih, closers, cons_append]
    congr 2
    omega

/-- A loop that closes blocks down to the one of a width writes their braces. -/
theorem At.closes (loop : Nat → State → Except Fault State)
    (hstop : ∀ n {s : State}, s.widths = w :: ws → loop n s = .ok s)
    (hstep : ∀ n {s : State} {v next : Nat} {rest : List Nat}, w < v →
    s.widths = v :: next :: rest → loop (n + 1) s = s.pop .toJavaScript >>= loop n)
    (h : At (inner ++ w :: ws) out s) (hinner : ∀ v ∈ inner, w < v) (hfuel : inner.length ≤ n) :
    ∃ t, loop n s = .ok t ∧ At (w :: ws) (out ++ closers inner.length ws.length) t ∧
      t.closed = s.closed + inner.length ∧ t.pendingScope = s.pendingScope := by
  induction inner generalizing s out n with
  | nil => exact ⟨s, hstop n h.widths, by simpa [closers] using h, rfl, rfl⟩
  | cons v inner ih =>
    rw [length_cons] at hfuel
    obtain ⟨n, rfl⟩ : ∃ m, n = m + 1 := ⟨n - 1, by omega⟩
    obtain ⟨next, more, hmore⟩ : ∃ next more, inner ++ w :: ws = next :: more := by
      cases inner with
      | nil => exact ⟨w, ws, rfl⟩
      | cons x inner => exact ⟨x, inner ++ w :: ws, rfl⟩
    rw [cons_append, hmore] at h
    obtain ⟨mid, hpop, hmid, hclosed, hpending⟩ := h.pop
    rw [← hmore] at hmid
    obtain ⟨t, ht, hat, hcount, hsame⟩ :=
      ih (n := n) hmid (fun x hx => hinner x (mem_cons_of_mem _ hx)) (by omega)
    have hdepth : more.length = ws.length + inner.length := by
      have hlength := congrArg length hmore
      rw [length_append, length_cons, length_cons] at hlength
      omega
    refine ⟨t, ?_, ?_, ?_, hsame.trans hpending⟩
    · rw [hstep n (hinner v mem_cons_self) h.widths, hpop]
      exact ht
    · rw [append_assoc, hdepth] at hat
      exact hat
    · rw [hcount, hclosed, length_cons]
      omega

/-- Wider blocks are closed with a brace each. -/
theorem At.closeWider (h : At (inner ++ w :: ws) out s) (hinner : ∀ v ∈ inner, w < v) :
    ∃ t, s.closeWider .toJavaScript w s.widths.length = .ok t ∧
      At (w :: ws) (out ++ closers inner.length ws.length) t ∧ t.closed = s.closed + inner.length ∧
      t.pendingScope = s.pendingScope := by
  have hfuel : inner.length ≤ s.widths.length := by
    rw [h.widths, length_append]
    omega
  refine At.closes (fun n s => s.closeWider .toJavaScript w n) ?_ ?_ h hinner hfuel
  · intro n s hs
    cases n with
    | zero => rfl
    | succ n =>
      rw [State.closeWider, hs]
      cases ws with
      | nil => rfl
      | cons v ws =>
        simp only [Nat.lt_irrefl, if_false]
        rfl
  · intro n s v next rest hv hs
    rw [State.closeWider, hs]
    simp only [hv, if_true]

/-- At the end all blocks are closed. -/
theorem At.closeAll (h : At (inner ++ [w]) out s) (hinner : ∀ v ∈ inner, w < v) :
    ∃ t, s.closeAll .toJavaScript s.widths.length = .ok t ∧
    At [w] (out ++ closers inner.length 0) t := by
  have hfuel : inner.length ≤ s.widths.length := by
    rw [h.widths, length_append]
    omega
  obtain ⟨t, ht, hat, -⟩ : ∃ t, s.closeAll .toJavaScript s.widths.length = .ok t ∧ _ := by
    refine At.closes (fun n s => s.closeAll .toJavaScript n) ?_ ?_ h hinner hfuel
    · intro n s hs
      cases n with
      | zero => rfl
      | succ n =>
        rw [State.closeAll, hs]
        rfl
    · intro n s v next rest hv hs
      rw [State.closeAll, hs]
  exact ⟨t, ht, hat⟩

/-- A block of the given width is open, perhaps with others inside. Their braces are the last lines
of the output that are still to be written. -/
def Stands (w : Nat) (ws : List Nat) (out : List Text) (s : State) : Prop :=
  ∃ inner mid, At (inner ++ w :: ws) mid s ∧ s.pendingScope = none ∧ (∀ v ∈ inner, w < v) ∧
    out = mid ++ closers inner.length ws.length

/-- A header in a block of the given width announced another block. -/
def Awaits (w : Nat) (ws : List Nat) (out : List Text) (s : State) : Prop :=
  At (w :: ws) out s ∧ ∃ scope, s.pendingScope = some scope ∧ isOrdinaryScope scope = true

/-- A line of the given width belongs to a block of that width, after some blocks are closed. -/
structure Settles (w : Nat) (ws : List Nat) (out : List Text) (closed : Nat) (s : State) :
    Prop where
  comment : s.inComment = false
  brackets : s.brackets = 0
  settled : ∃ u, settleBlocks .toJavaScript { s with hasContent := true } w = .ok u ∧
    At (w :: ws) out u ∧ u.closed = closed ∧ u.pendingScope = none

theorem Stands.outer (h : Stands v (w :: ws) out s) (hw : w < v) :
    Stands w ws (out ++ [lineAt 2 ws.length "\x7d"]) s := by
  obtain ⟨inner, mid, hat, hpending, hinner, rfl⟩ := h
  refine ⟨inner ++ [v], mid, ?_, hpending, ?_, ?_⟩
  · rw [append_assoc]
    exact hat
  · intro x hx
    rcases mem_append.mp hx with hx | hx
    · exact Nat.lt_trans hw (hinner x hx)
    · rw [mem_singleton.mp hx]
      exact hw
  · rw [length_append, length_singleton, closers_succ, append_assoc, length_cons]

theorem settleBlocks_of_none (c : Conversion) (h : s.pendingScope = none) (w : Nat) :
    settleBlocks c s w = State.closeWider c w s.widths.length { s with closed := 0 } := by
  have hnone : s.pendingScope.isSome = false := by rw [h]; rfl
  simp only [settleBlocks, hnone, false_eq_true, if_false, pure_bind]

theorem settleBlocks_of_some (c : Conversion) (h : s.pendingScope = some scope)
    (hwidths : s.widths = w :: ws)
    (hw : w < v) :
    settleBlocks c s v = State.closeWider c v (s.widths.length + 1)
    ({ s with closed := 0 }.push v) := by
  have hsome : s.pendingScope.isSome = true := by rw [h]; rfl
  have hinner : innermost s.widths = pure w := by rw [hwidths]; rfl
  simp only [settleBlocks, hsome, if_true, hinner, pure_bind, if_pos hw]
  rfl

theorem At.settles (h : At (inner ++ w :: ws) out s) (hpending : s.pendingScope = none)
    (hinner : ∀ v ∈ inner, w < v) :
    Settles w ws (out ++ closers inner.length ws.length) inner.length s := by
  have hstart : At (inner ++ w :: ws) out { s with hasContent := true, closed := 0 } :=
    ⟨h.widths, h.scopes, h.names, h.ordinary, h.output, h.comment, h.brackets⟩
  obtain ⟨u, hu, hat, hclosed, hnone⟩ := hstart.closeWider hinner
  refine ⟨h.comment, h.brackets, u, ?_, hat, hclosed.trans (Nat.zero_add _), hnone.trans hpending⟩
  exact (settleBlocks_of_none (s := { s with hasContent := true }) _ hpending w).trans hu

theorem Stands.settles (h : Stands w ws out s) : ∃ n, Settles w ws out n s := by
  obtain ⟨inner, mid, hat, hpending, hinner, rfl⟩ := h
  exact ⟨inner.length, hat.settles hpending hinner⟩

theorem Stands.settles_outer (h : Stands v (w :: ws) out s) (hw : w < v) :
    ∃ n, Settles w ws (out ++ [lineAt 2 ws.length "\x7d"]) (n + 1) s := by
  obtain ⟨inner, mid, hat, hpending, hinner, rfl⟩ := h
  have hall : ∀ x ∈ inner ++ [v], w < x := by
    intro x hx
    rcases mem_append.mp hx with hx | hx
    · exact Nat.lt_trans hw (hinner x hx)
    · rw [mem_singleton.mp hx]
      exact hw
  rw [← singleton_append, ← append_assoc] at hat
  have hsettles := hat.settles hpending hall
  rw [length_append, length_singleton, closers_succ, ← append_assoc] at hsettles
  exact ⟨inner.length, hsettles⟩

/-- The first line of a body settles the width of the block. -/
theorem Awaits.settles (h : Awaits w ws out s) (hw : w < v) : Settles v (w :: ws) out 0 s := by
  obtain ⟨hat, scope, hpending, hscope⟩ := h
  let pushed : State := { s with hasContent := true, closed := 0 }.push v
  have hpushed : At ([] ++ v :: w :: ws) out pushed := by
    refine ⟨congrArg (v :: ·) hat.widths, congrArg (· + 1) hat.scopes, congrArg (· + 1) hat.names,
      ?_, hat.output, hat.comment, hat.brackets⟩
    intro sc hsc
    rcases mem_cons.mp hsc with rfl | hsc
    · show isOrdinaryScope (s.pendingScope.getD .block) = true
      rw [hpending]
      exact hscope
    · exact hat.ordinary sc hsc
  obtain ⟨u, hu, hat', hclosed, hnone⟩ := hpushed.closeWider nofun
  refine ⟨hat.comment, hat.brackets, u, ?_, ?_, hclosed, hnone⟩
  · exact (settleBlocks_of_some (s := { s with hasContent := true }) _ hpending hat.widths
      hw).trans hu
  · rw [length_nil, closers, append_nil] at hat'
    exact hat'

theorem Settles.visits (h : Settles w ws out n s) (hcode : IsCode t) (hlead : Lead w lead) :
    ∃ u, At (w :: ws) out u ∧ u.closed = n ∧ u.pendingScope = none ∧
    visitLine .toJavaScript s (lead ++ t) =
      written .toJavaScript none (classify all t) <$>
        visit .toJavaScript u (classify all t) := by
  obtain ⟨u, hu, hat, hclosed, hpending⟩ := h.settled
  refine ⟨u, hat, hclosed, hpending, ?_⟩
  have hsame : { u with brackets := 0 } = u := by
    rw [← hat.brackets]
  rw [visitLine_code hcode hlead h.comment h.brackets, hu]
  show _ <$> visit .toJavaScript { u with brackets := 0 } _ = _
  rw [hsame]

theorem written_line {l : Classified} (hkind : isContinuation l.kind = false) (c : Conversion)
    (u : State) (t : Text) : written c none l (u, .line t) = u.emit c u.depth (.line t) := by
  simp only [written, merged, hkind, annotated]

/-- Visiting a header announces an ordinary block. -/
def Opens (text : Text) (u : State) (visited : Visit) : Prop :=
  ∃ scope names decorators, isOrdinaryScope scope = true ∧
    visited = .ok ({ u.announce scope names with decorators := decorators },
    .line (text ++ " \x7b"))

theorem At.announce (h : At (w :: ws) out s) (hscope : isOrdinaryScope scope = true)
    (names decorators : List Text) :
    Awaits w ws out { s.announce scope names with decorators := decorators } :=
  ⟨⟨h.widths, h.scopes, h.names, h.ordinary, h.output, h.comment, h.brackets⟩, scope, rfl, hscope⟩

theorem Awaits.emit (h : Awaits w ws out s) (hne : t ≠ []) (hline : '\n' ∉ t) :
    Awaits w ws (out ++ [lineAt 2 ws.length t]) (s.emit .toJavaScript s.depth (.line t)) :=
  ⟨h.1.emit hne hline, h.2⟩

/-- A header is written with its brace and awaits its body. -/
theorem Settles.opens (h : Settles w ws out n s) (text : Text) (hcode : IsCode t)
    (hlead : Lead w lead)
    (hkind : isContinuation (classify all t).kind = false) (hline : '\n' ∉ text)
    (hvisit : ∀ u, At (w :: ws) out u →
    Opens text u (visit .toJavaScript u (classify all t))) :
    ∃ s', visitLine .toJavaScript s (lead ++ t) = .ok s' ∧
      Awaits w ws (out ++ [lineAt 2 ws.length (text ++ " \x7b")]) s' := by
  obtain ⟨u, hat, -, -, hvisited⟩ := h.visits hcode hlead
  obtain ⟨scope, names, decorators, hscope, hopens⟩ := hvisit u hat
  refine ⟨_, ?_,
    (hat.announce hscope names decorators).emit (t := text ++ " \x7b") (by simp) (by simp [hline])⟩
  rw [hvisited, hopens]
  exact congrArg Except.ok (written_line hkind .toJavaScript _ _)

/-- A header that continues a block takes the place of its brace. -/
theorem Settles.continues (h : Settles w ws (out ++ [lineAt 2 ws.length "\x7d"]) (n + 1) s)
    (text : Text) (hcode : IsCode t)
    (hlead : Lead w lead) (hkind : isContinuation (classify all t).kind = true)
    (hline : '\n' ∉ text) (hvisit : ∀ u, At (w :: ws) (out ++ [lineAt 2 ws.length "\x7d"]) u →
      Opens text u (visit .toJavaScript u (classify all t))) :
    ∃ s', visitLine .toJavaScript s (lead ++ t) = .ok s' ∧
      Awaits w ws (out ++ [lineAt 2 ws.length (text ++ " \x7b")]) s' := by
  obtain ⟨u, hat, hclosed, -, hvisited⟩ := h.visits hcode hlead
  obtain ⟨scope, names, decorators, hscope, hopens⟩ := hvisit u hat
  let announced : State := { u.announce scope names with decorators := decorators }
  have hawaits : Awaits w ws out { announced with output := u.output.pop } := by
    have hbefore := hat.announce hscope names decorators
    refine ⟨⟨hat.widths, hat.scopes, hat.names, hat.ordinary, ?_, hat.comment, hat.brackets⟩,
      hbefore.2⟩
    show u.output.pop.toList = out
    rw [Array.toList_pop, hat.output, dropLast_concat]
  have hmerge : mergeContinuation announced (text ++ " \x7b") =
      ({ announced with output := u.output.pop }, text ++ " \x7b") := by
    have hback : u.output.back? = some (lineAt 2 ws.length "\x7d") := by
      rw [← Array.getLast?_toList, hat.output, getLast?_concat]
    have hstrip : strip (lineAt 2 ws.length "\x7d") = "\x7d" := by
      have hblank : ∀ c ∈ replicate (ws.length * 2) ' ', isBlank c = true := by
        intro c hc
        rw [eq_of_mem_replicate hc]
        decide
      have hparts := strip_append (t := "\x7d") hblank rfl (forall_mem_nil _)
      rwa [append_nil] at hparts
    have hcount : 0 < announced.closed := by
      show 0 < u.closed
      omega
    simp only [mergeContinuation, hcount, decide_true, Bool.true_and]
    show (if decide (u.output.back?.map strip = some ['}']) = true then _ else _) = _
    rw [hback, Option.map_some, hstrip]
    rfl
  refine ⟨_, ?_, hawaits.emit (t := text ++ " \x7b") (by simp) (by simp [hline])⟩
  rw [hvisited, hopens]
  refine congrArg Except.ok ?_
  show written _ _ _ (announced, _) = _
  simp only [written, merged, hkind, annotated, hmerge]

end CodeConverter.Indent
