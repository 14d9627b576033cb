import CodeConverter.Loop
import CodeConverter.Proofs.Pattern.Preferred
import CodeConverter.Proofs.Program.Name

/-!
# Written headers of counting loops

`Written` is a header with three parts as it stands in a text: any blanks between its words, a
declaration or none in front of the variable, and one of the six ways to write the step. Its start
and its bound are any texts without a semicolon. `Written.parse?_text` says that reading the text of
such a header gives back its parts.
-/

namespace CodeConverter.Loop

open Text Pattern Program List Bool

variable {s u : State}

/-- A run of blanks. -/
structure Blanks where
  text : Text
  blank : ∀ c ∈ text, isBlank c = true

/-- A text that can stand between the blanks and semicolons of a header. -/
structure IsPart (t : Text) : Prop where
  nonempty : t ≠ []
  stripped : strip t = t
  undivided : ';' ∉ t

/-- The type or keyword that declares the variable, with the blanks after it. -/
structure Declaration where
  type : Text
  gap : Blanks
  type_ne_nil : type ≠ []
  type_chars : ∀ c ∈ type, wordOr "<>[]" c = true
  gap_ne_nil : gap.text ≠ []

/-- The declaration in front of the variable, if there is one. -/
def declared : Option Declaration → Text
  | none => []
  | some d => d.type ++ d.gap.text

/-- The sign of a comparison. -/
def Comparison.text : Comparison → Text
  | .less => "<"
  | .atMost => "<="
  | .greater => ">"
  | .atLeast => ">="

/-- The sign of a direction. -/
def signOf (up : Bool) : Char :=
  if up then '+' else '-'

/-- How the step is written: the doubled sign behind or in front of the variable, or an amount. -/
inductive Update where
  | behind (gap : Blanks) (up : Bool)
  | front (up : Bool) (gap : Blanks)
  | amount (gap : Blanks) (up : Bool) (inner : Blanks) (value : Text)
      (isIdentifier : IsIdentifier value)

namespace Update

/-- The text of the step of a variable. -/
def text (name : Text) : Update → Text
  | .behind gap up => name ++ (gap.text ++ [signOf up, signOf up])
  | .front up gap => [signOf up, signOf up] ++ (gap.text ++ name)
  | .amount gap up inner value _ =>
      name ++ (gap.text ++ ([signOf up, '='] ++ (inner.text ++ value)))

/-- The step that is meant. Spaces in front of an amount are dropped, other blanks belong to it. -/
def step : Update → Step
  | .behind _ up => ⟨up, "1"⟩
  | .front up _ => ⟨up, "1"⟩
  | .amount _ up inner value _ => ⟨up, inner.text.filter (· ≠ ' ') ++ value⟩

/-- The piece that is remembered of the step, with its number. -/
def group : Update → Nat × Text
  | .behind _ up => (5, [signOf up, signOf up])
  | .front up _ => (6, [signOf up, signOf up])
  | .amount _ up inner value _ => (5, [signOf up, '='] ++ (inner.text ++ value))

end Update

/-- A header with three parts as it is written. The blanks between its words are numbered from left
to right. -/
structure Written where
  gap : Nat → Blanks
  declaration : Option Declaration
  name : Text
  start : Text
  comparison : Comparison
  bound : Text
  update : Update
  finish : Text
  isName : IsName name
  isPart_start : IsPart start
  isPart_bound : IsPart bound
  bound_apart : (gap 7).text = [] → bound.head? ≠ some '='
  finish_cases : finish = [] ∨ finish = "\x7b" ∨ finish = "\x7b\n"

namespace Written

/-- The text behind the step. -/
def ending (w : Written) : Text :=
  (w.gap 10).text ++ (')' :: ((w.gap 11).text ++ w.finish))

/-- The text behind the first semicolon. -/
def condition (w : Written) : Text :=
  (w.gap 5).text ++
    (w.name ++ ((w.gap 6).text ++ (w.comparison.text ++ ((w.gap 7).text ++ (w.bound ++
    ((w.gap 8).text ++ (';' :: ((w.gap 9).text ++ (w.update.text w.name ++ w.ending)))))))))

/-- The text of the header. -/
def text (w : Written) : Text :=
  "for" ++ ((w.gap 0).text ++
    ('(' :: ((w.gap 1).text ++ (declared w.declaration ++ (w.name ++ ((w.gap 2).text ++
    ('=' :: ((w.gap 3).text ++ (w.start ++ ((w.gap 4).text ++ (';' :: w.condition)))))))))))

/-- The loop that is meant. -/
def header (w : Written) : Header :=
  ⟨w.name, w.start, w.comparison, w.bound, w.update.step⟩

end Written

/-! ### Reading a header -/

variable {k : State → Option State} {w : Written} {rest t : Text}
    {groups result : List (Nat × Text)} {c : Char}

theorem completes_blanks (h : Completes k rest groups result) (gap : Blanks)
    (hrest : ∀ c ∈ rest.head?, isBlank c = false) :
    Completes (first blanks k) (gap.text ++ rest) groups result :=
  h.many gap.blank hrest

theorem completes_sign (h : Completes k rest groups result) (gap : Blanks)
    (hc : isBlank c = false) :
    Completes (first blanks (first (.literal [c]) k)) (gap.text ++ c :: rest) groups result :=
  completes_blanks (h.literal (t := [c])) gap (by simpa using hc)

/-- A piece without a blank at its end is not left before its end: blanks and a sign that is not in
it do not follow inside. -/
theorem first_sign_none {a b : Text} (hahead : s.ahead = b ++ rest)
    (hlast : ∀ x ∈ t.getLast?, isBlank x = false)
    (hsplit : t = a ++ b) (hb : b ≠ []) (hc : c ∉ t) :
    first blanks (first (.literal [c]) k) s = none := by
  obtain ⟨front, d, rfl⟩ := (eq_nil_or_concat' b).resolve_left hb
  refine first_blanks_none hahead ⟨d, by simp, hlast d (by simp [hsplit])⟩ fun v p q _ hpq hq hv =>
    first_symbol_none fun hhead => hc ?_
  rw [hv, head?_append_of_ne_nil _ hq] at hhead
  rw [hsplit, hpq]
  simp [mem_of_mem_head? hhead]

theorem completes_part {n : Nat} (h : Completes k rest ((n, t) :: groups) result) (ht : IsPart t)
    (gap : Blanks) :
    Completes (first (.group n (few1 (except ";"))) (first blanks (first (.literal [';']) k)))
      (t ++ (gap.text ++ ';' :: rest)) groups result :=
  (completes_sign h gap rfl).group_lazy
    (fun v a b hab hb hv =>
    first_sign_none hv (strip_eq_self_iff.mp ht.stripped).2 hab hb ht.undivided)
    fun hahead hnone hk => first_few1 hahead ht.nonempty
      (fun d hd => by simpa [except] using ne_of_mem_of_not_mem hd ht.undivided) hnone hk

theorem completes_finish (w : Written) :
    Completes (first blanks (first (maybe "\x7b") (first .atEnd some)))
    ((w.gap 11).text ++ w.finish) groups groups := by
  have hend : ∀ t : Text, t = [] ∨ t = ['\n'] → Completes (first .atEnd some) t groups groups := by
    intro t ht s hahead hgroups
    refine ⟨s, first_atEnd ?_ rfl, hgroups⟩
    rcases ht with rfl | rfl <;> simp [State.isEnd, hahead]
  rcases w.finish_cases with h | h | h <;> rw [h]
  · refine completes_blanks (.maybe_skip ?_ (hend [] (.inl rfl))) (w.gap 11) (by simp)
    intro s hahead _
    exact first_literal_none (by simp [hahead])
  · exact completes_blanks (((hend [] (.inl rfl)).literal (t := "\x7b")).alt_left) (w.gap 11)
      (by decide)
  · exact completes_blanks (((hend ['\n'] (.inr rfl)).literal (t := "\x7b")).alt_left) (w.gap 11)
      (by decide)

/-- The third part of a header. -/
def stepPattern : Pattern :=
  oneOf [again 1 ++ blanks ++ group 5 (oneOf [
      "++", "--", "+=" ++ blanks ++ few1 (except ")"), "-=" ++ blanks ++ few1 (except ")")]),
    group 6 (keyword ["++", "--"]) ++ blanks ++ again 1]

theorem first_doubled {q : Pattern} {up : Bool} (hahead : s.ahead = [signOf up, signOf up] ++ rest)
    (h : k (s.past [signOf up, signOf up] rest) = some u)
    (hq : up = false → first (.literal ['-', '-']) k s = some u → first q k s = some u) :
    first (.alt "++" q) k s = some u := by
  cases up with
  | true => exact first_alt_left (first_literal hahead h)
  | false =>
    exact first_alt_right (first_symbol_none (c := '+') (by simp [hahead, signOf]))
      (hq rfl (first_literal hahead h))

/-- An amount is passed with its sign up to the closing parenthesis and remembered. -/
theorem completes_amount {up : Bool} {value : Text} {inner gap : Blanks}
    (hvalue : IsIdentifier value)
    (h : Completes k rest ((5, [signOf up, '='] ++ (inner.text ++ value)) :: groups) result) :
    Completes
    (first (group 5
    (oneOf ["++", "--", "+=" ++ blanks ++ few1 (except ")"), "-=" ++ blanks ++ few1 (except ")")]))
        (first blanks (first (.literal [')']) k)))
      ([signOf up, '='] ++ (inner.text ++ (value ++ (gap.text ++ ')' :: rest)))) groups result := by
  have hclose : ')' ∉ [signOf up, '='] ++ (inner.text ++ value) := by
    have hinner : ')' ∉ inner.text := fun hmem => by cases inner.blank _ hmem
    cases up <;> simp [signOf, hinner, hvalue.not_mem (d := ')') rfl]
  have hlast : ∀ x ∈ ([signOf up, '='] ++ (inner.text ++ value)).getLast?, isBlank x = false := by
    rw [← append_assoc, getLast?_append_of_ne_nil _ hvalue.1]
    exact (strip_eq_self_iff.mp hvalue.stripped).2
  rw [← append_assoc inner.text, ← append_assoc]
  refine (completes_sign h gap rfl).group_lazy (fun v a b hab hb hv =>
    first_sign_none hv hlast hab hb hclose)
    fun {accept s u} hahead hnone hk => ?_
  rw [append_assoc, append_assoc] at hahead
  have hsteps : first (.literal [signOf up, '='] ++ blanks ++ few1 (except ")")) accept s =
      some u := by
    rw [first_append, first_append]
    refine first_literal hahead
      (first_many rfl inner.blank hvalue.head_not_blank (first_few1 rfl hvalue.1 ?_ ?_ ?_))
    · exact fun d hd => by
        simpa [except] using ne_of_mem_of_not_mem hd (hvalue.not_mem (d := ')') rfl)
    · intro a b hsplit hb
      rw [State.past_past, State.past_past]
      exact hnone _ b (by rw [hsplit]; simp) hb
    · rwa [State.past_past, State.past_past]
  -- A doubled sign does not follow, since the second character is an equals sign.
  have hdoubled : ∀ d, d ≠ '=' → ∀ k, first (.literal [d, d]) k s = none := by
    intro d hd k
    refine first_literal_none ?_
    rw [hahead]
    rintro ⟨tail, htail⟩
    exact hd (cons.inj (cons.inj htail).2).1
  refine first_alt_right (hdoubled '+' (by decide) _)
    (first_alt_right (hdoubled '-' (by decide) _) ?_)
  cases up with
  | true => exact first_alt_left hsteps
  | false =>
    refine first_alt_right ?_ hsteps
    rw [first_append, first_append]
    exact first_symbol_none (c := '+') (by simp [hahead, signOf])

/-- The step is passed with the closing parenthesis and remembered. -/
theorem completes_step (w : Written) (hname : groups.lookup 1 = some w.name)
    (h : Completes k rest (w.update.group :: groups) result) :
    Completes (first stepPattern (first blanks (first (.literal [')']) k)))
      (w.update.text w.name ++ ((w.gap 10).text ++ ')' :: rest)) groups result := by
  have hsign : ∀ (up : Bool) (t : Text), ∀ c ∈ (signOf up :: t).head?, isBlank c = false := by
    intro up t c hc
    obtain rfl : signOf up = c := by simpa using hc
    cases up <;> decide
  have hend := fun gs (h : Completes k rest gs result) => completes_sign h (w.gap 10) (c := ')') rfl
  cases hupdate : w.update with
  | behind gap up =>
    rw [hupdate] at h
    rw [Update.text, append_assoc, append_assoc]
    refine .alt_left ?_
    rw [first_append, first_append]
    refine .again (completes_blanks (.group (hend _ h) fun hahead hk => ?_) gap (hsign up _)) hname
    exact first_doubled hahead hk fun _ hminus => first_alt_left hminus
  | front up gap =>
    rw [hupdate] at h
    rw [Update.text, append_assoc, append_assoc]
    refine .alt_right ?_ ?_
    · intro s hahead hgroups
      rw [first_append, first_append]
      refine first_again_none (hgroups ▸ hname) ?_
      obtain ⟨c, tail, hc⟩ := exists_cons_of_ne_nil w.isName.1
      rw [hahead, hc]
      rintro ⟨u, hu⟩
      have hword := w.isName.2 c (by rw [hc]; exact mem_cons_self)
      obtain rfl : c = signOf up := (cons.inj hu).1
      cases up <;> cases hword
    · rw [oneOf, first_append, first_append]
      refine .group (completes_blanks (.again (hend _ h) hname) gap w.isName.head_not_blank)
        fun hahead hk => ?_
      exact first_doubled hahead hk fun _ hminus => hminus
  | amount gap up inner value hvalue =>
    rw [hupdate] at h
    rw [Update.text, append_assoc, append_assoc, append_assoc, append_assoc]
    refine .alt_left ?_
    rw [first_append, first_append]
    exact .again (completes_blanks (completes_amount hvalue h) gap (hsign up _)) hname

/-- A comparison is passed where no equals sign follows it. -/
theorem first_comparison (comparison : Comparison) (hahead : s.ahead = comparison.text ++ rest)
    (hrest : rest.head? ≠ some '=') (h : k (s.past comparison.text rest) = some u) :
    first (keyword ["<=", "<", ">=", ">"]) k s = some u := by
  have hlonger : ∀ c d, s.ahead = c :: rest → first (.literal [d, '=']) k s = none := by
    intro c d hc
    refine first_literal_none ?_
    rw [hc]
    rintro ⟨tail, htail⟩
    rw [← (cons.inj htail).2] at hrest
    exact hrest rfl
  have hother : ∀ c d t, c ≠ d → s.ahead = c :: t → ∀ text,
      first (.literal (d :: text)) k s = none := by
    intro c d t hne hc text
    exact first_symbol_none (by simpa [hc] using hne)
  cases comparison with
  | atMost => exact first_alt_left (first_literal hahead h)
  | less => exact first_alt_right (hlonger '<' '<' hahead) (first_alt_left (first_literal hahead h))
  | atLeast =>
    exact first_alt_right (hother '>' '<' _ (by decide) hahead _)
      (first_alt_right (hother '>' '<' _ (by decide) hahead _)
      (first_alt_left (first_literal hahead h)))
  | greater =>
    exact first_alt_right (hother '>' '<' _ (by decide) hahead _)
      (first_alt_right (hother '>' '<' _ (by decide) hahead _)
      (first_alt_right (hlonger '>' '>' hahead) (first_literal hahead h)))

theorem IsPart.head_not_blank (h : IsPart t) : ∀ c ∈ (t ++ rest).head?, isBlank c = false := by
  intro c hc
  rw [head?_append_of_ne_nil _ h.nonempty] at hc
  exact (strip_eq_self_iff.mp h.stripped).1 c hc

theorem Written.head_update_not_blank (w : Written) : ∀ c ∈ (w.update.text w.name ++ rest).head?,
    isBlank c = false := by
  cases w.update with
  | front up gap =>
    intro c hc
    obtain rfl : signOf up = c := by simpa [Update.text] using hc
    cases up <;> decide
  | behind | amount =>
    rw [Update.text, append_assoc]
    exact w.isName.head_not_blank

theorem Written.head_bound (w : Written) :
    ((w.gap 7).text ++ (w.bound ++ rest)).head? ≠ some '=' := by
  cases hgap : (w.gap 7).text with
  | nil =>
    rw [nil_append, head?_append_of_ne_nil _ w.isPart_bound.nonempty]
    exact w.bound_apart hgap
  | cons c gap =>
    intro hhead
    obtain rfl : c = '=' := by simpa using hhead
    have hblank := (w.gap 7).blank '=' (by rw [hgap]; exact mem_cons_self)
    cases hblank

/-- The condition and the step of a header are passed. -/
theorem completes_condition (w : Written) (hname : groups.lookup 1 = some w.name)
    (h : Completes k rest (w.update.group :: (4, w.bound) :: (3, w.comparison.text) ::
    groups) result) :
    Completes
    (first blanks
    (first (again 1) (first blanks (first (group 3 (keyword ["<=", "<", ">=", ">"])) (first blanks
      (first (group 4 (few1 (except ";"))) (first blanks (first (.literal [';']) (first blanks
        (first stepPattern (first blanks (first (.literal [')']) k))))))))))))
      ((w.gap 5).text ++
      (w.name ++ ((w.gap 6).text ++ (w.comparison.text ++ ((w.gap 7).text ++ (w.bound ++
        ((w.gap 8).text ++
        (';' :: ((w.gap 9).text ++
        (w.update.text w.name ++ ((w.gap 10).text ++ ')' :: rest))))))))))) groups result := by
  have hremembered : lookup 1 ((4, w.bound) :: (3, w.comparison.text) :: groups) = some w.name :=
    hname
  have hstep := completes_blanks (completes_step w hremembered h) (w.gap 9) w.head_update_not_blank
  have hbound :=
    completes_blanks (completes_part hstep w.isPart_bound (w.gap 8)) (w.gap 7)
      w.isPart_bound.head_not_blank
  have hcomparison :=
    hbound.group fun hahead hk => first_comparison w.comparison hahead w.head_bound hk
  refine completes_blanks (.again (completes_blanks hcomparison (w.gap 6) ?_) hname) (w.gap 5)
    w.isName.head_not_blank
  rw [head?_append_of_ne_nil _ (by cases w.comparison <;> decide)]
  cases w.comparison <;> decide

theorem wordOr_eq_false_of_isBlank (h : isBlank c = true) : wordOr "<>[]" c = false := by
  rw [wordOr, isWord_eq_false_of_isBlank h, Bool.false_or, contains_eq_mem, decide_eq_false_iff_not]
  intro hmem
  have hnone : ∀ d ∈ "<>[]".toList, isBlank d = false := by decide
  rw [hnone c hmem] at h
  cases h

/-- The declaration and the variable of a header are passed, and the variable is remembered. -/
theorem completes_variable (w : Written) (h : Completes k rest ((1, w.name) :: groups) result) :
    Completes
    (first (maybe (many1 (wordOr "<>[]") ++ gap))
    (first (group 1 word) (first blanks (first (.literal ['=']) k))))
      (declared w.declaration ++ (w.name ++ ((w.gap 2).text ++ '=' :: rest))) groups result := by
  have hafter : ∀ c ∈ ((w.gap 2).text ++ '=' :: rest).head?, isBlank c = true ∨ c = '=' := by
    intro c hc
    cases hgap : (w.gap 2).text with
    | nil => exact .inr (by simpa [hgap] using hc.symm)
    | cons d gap =>
      obtain rfl : d = c := by simpa [hgap] using hc
      exact .inl ((w.gap 2).blank d (by rw [hgap]; exact mem_cons_self))
  have hword : Completes (first (group 1 word) (first blanks (first (.literal ['=']) k)))
      (w.name ++ ((w.gap 2).text ++ '=' :: rest)) groups result := by
    refine (completes_sign h (w.gap 2) rfl).group fun hahead hk =>
      first_many1 hahead w.isName.1 w.isName.2 ?_ hk
    intro c hc
    rcases hafter c hc with hblank | rfl
    · exact isWord_eq_false_of_isBlank hblank
    · decide
  cases hdeclaration : w.declaration with
  | some d =>
    rw [declared, append_assoc]
    refine .alt_left ?_
    rw [first_append]
    refine .many1 (.many1 hword d.gap_ne_nil d.gap.blank w.isName.head_not_blank) d.type_ne_nil
      d.type_chars ?_
    intro c hc
    rw [head?_append_of_ne_nil _ d.gap_ne_nil] at hc
    exact wordOr_eq_false_of_isBlank (d.gap.blank c (mem_of_mem_head? hc))
  | none =>
    -- A declaration would end behind the name, and then no word follows.
    refine .maybe_skip (fun s hahead _ => ?_) hword
    rw [first_append]
    refine first_eq_none fun a v ha => first_eq_none fun b v' hb => ?_
    obtain ⟨-, hachars, hasplit⟩ := nonempty_run_of_reads ha
    obtain ⟨hbne, hbchars, hbsplit⟩ := nonempty_run_of_reads hb
    rw [first_group]
    refine first_many1_none fun c hc => eq_false_iff.mpr fun hword => ?_
    obtain ⟨-, hgap⟩ := run_eq_of_heads (fun d hd => by simp [wordOr, w.isName.2 d hd]) hachars
      (fun d hd => (hafter d hd).elim wordOr_eq_false_of_isBlank (by rintro rfl; decide))
      (fun d hd => by
        rw [hbsplit, head?_append_of_ne_nil _ hbne] at hd
        exact wordOr_eq_false_of_isBlank (hbchars d (mem_of_mem_head? hd)))
      (show w.name ++ ((w.gap 2).text ++ '=' :: rest) = a ++ v.ahead from hahead.symm.trans hasplit)
    rw [hbsplit] at hgap
    obtain ⟨-, htail⟩ := run_eq_of_heads (w.gap 2).blank hbchars (by simp [isBlank])
      (fun d hd => isBlank_eq_false_of_isWord (by rwa [Option.mem_unique hd hc])) hgap
    rw [← htail] at hc
    obtain rfl : '=' = c := by simpa using hc
    cases hword

theorem Written.head_declared_not_blank (w : Written) :
    ∀ c ∈ (declared w.declaration ++ (w.name ++ rest)).head?, isBlank c = false := by
  cases w.declaration with
  | none =>
    rw [declared, nil_append]
    exact w.isName.head_not_blank
  | some d =>
    intro c hc
    rw [declared, append_assoc, head?_append_of_ne_nil _ d.type_ne_nil] at hc
    refine eq_false_iff.mpr fun hblank => ?_
    have hchar := d.type_chars c (mem_of_mem_head? hc)
    rw [wordOr_eq_false_of_isBlank hblank] at hchar
    cases hchar

theorem Comparison.ofText_text (comparison : Comparison) :
    Comparison.ofText comparison.text = comparison := by
  cases comparison <;> rfl

theorem Update.ofText_group (update : Update) : Step.ofText update.group.2 = update.step := by
  cases update with
  | behind gap up | front up gap => cases up <;> rfl
  | amount gap up inner value isIdentifier =>
    have hvalue : value.filter (· ≠ ' ') = value := by
      refine filter_eq_self.mpr fun c hc => decide_eq_true ?_
      rintro rfl
      exact isIdentifier.not_mem rfl hc
    have hfilter : ([signOf up, '='] ++ (inner.text ++ value)).filter (· ≠ ' ') =
        [signOf up, '='] ++ (inner.text.filter (· ≠ ' ') ++ value) := by
      rw [filter_append, filter_append, hvalue]
      cases up <;> rfl
    rw [group, Step.ofText, hfilter]
    cases up <;> rfl

theorem Update.lookup_group (update : Update) (groups : List (Nat × Text))
    (h : groups.lookup 5 = none) :
    (((update.group :: groups).lookup 5).getD (((update.group :: groups).lookup 6).getD [])) =
    update.group.2 := by
  cases update with
  | behind gap up => rfl
  | front up gap => simp [group, lookup_cons, h]
  | amount => rfl

theorem Update.lookup_other (update : Update) (groups : List (Nat × Text)) {i : Nat} (h5 : i ≠ 5)
    (h6 : i ≠ 6) : (update.group :: groups).lookup i = groups.lookup i := by
  have hkey : (i == update.group.1) = false := by cases update <;> simp [group, h5, h6]
  show lookup i ((update.group.1, update.group.2) :: groups) = _
  rw [lookup_cons, hkey]

/-- Reading the text of a header gives back its parts. -/
theorem Written.parse?_text (w : Written) : Header.parse? w.text = some w.header := by
  have hname : lookup 1 [(2, w.start), (1, w.name)] = some w.name := rfl
  have hcondition := completes_condition w hname (completes_finish w)
  have hstart :=
    completes_blanks (completes_part hcondition w.isPart_start (w.gap 4)) (w.gap 3)
      w.isPart_start.head_not_blank
  have hvariable :=
    completes_blanks (completes_variable w hstart) (w.gap 1) w.head_declared_not_blank
  have hopening :=
    Completes.literal (t := "for") (completes_sign hvariable (w.gap 0) (c := '(') (by decide))
  obtain ⟨u, hu, hgroups⟩ := hopening (State.start w.text) rfl rfl
  have hfirst : first countingFor some (State.start w.text) = some u := by
    simp only [countingFor, first_append]
    exact first_atStart rfl hu
  obtain ⟨m, hm, hgroup⟩ := matchStart_of_first hfirst
  rw [hgroups] at hgroup
  have hother : ∀ i, i ≠ 5 → i ≠ 6 → m.group i =
      (lookup i [(4, w.bound), (3, w.comparison.text), (2, w.start), (1, w.name)]).getD [] := by
    intro i h5 h6
    rw [Match.group, hgroup, w.update.lookup_other _ h5 h6]
  have hstep : (m.group? 5).getD (m.group 6) = w.update.group.2 := by
    rw [Match.group, hgroup, hgroup]
    exact w.update.lookup_group _ rfl
  rw [Header.parse?, hm, Option.map_some, Header.ofMatch, hstep, Update.ofText_group,
    hother 1 (by decide) (by decide),
    hother 2 (by decide) (by decide), hother 3 (by decide) (by decide),
    hother 4 (by decide) (by decide)]
  show some (⟨w.name, w.start, .ofText w.comparison.text, w.bound, w.update.step⟩ : Header) = _
  rw [Comparison.ofText_text]
  rfl

end CodeConverter.Loop
