import CodeConverter.Proofs.Loop.Roundtrip
import CodeConverter.Proofs.Precedence.Arithmetic

/-!
# The values of a counting loop

A header with arithmetic parts is run as a loop: the variable is set to the start, and as long as it
compares with the bound, it is visited and moved by the step. The arguments of a range are evaluated
as numbers. `Written.visits_iff_ranges` says that the loop of a header visits the values of its
range, in the same order, whatever the variables stand for.
-/

namespace CodeConverter.Loop

open Text Program Precedence
open List hiding splitOn

/-! ### Ranges -/

variable {bound : Int} {h : Header}

/-- How many steps of a size fit into a distance, the last one counted even if it goes beyond. -/
def stepsWithin (distance size : Int) : Nat :=
  ((distance + size - 1) / size).toNat

/-- The values from `a` in steps of `d` before `b`. -/
def rangeValues (a b d : Int) : List Int :=
  (range (if 0 < d then stepsWithin (b - a) d else stepsWithin (a - b) (-d))).map fun i : Nat =>
    a + i * d

/-- The text lists the arguments of a range with these values: a start, a stop and perhaps a step
other than zero. -/
def Ranges (env : Text → Int) (t : Text) (values : List Int) : Prop :=
  match splitOn ',' t with
  | [x, y] => ∃ a b, Denotes env x a ∧ Denotes env y b ∧ values = rangeValues a b 1
  | [x, y, z] => ∃ a b d, Denotes env x a ∧ Denotes env y b ∧ Denotes env z d ∧ d ≠ 0 ∧
      values = rangeValues a b d
  | _ => False

variable {a b d distance size : Int} {tree : Precedence.Tree Sign}

theorem stepsWithin_of_le (hsize : 0 < size) (h : distance ≤ 0) :
    stepsWithin distance size = 0 := by
  have hle : (distance + size - 1) / size < 1 := Int.ediv_lt_of_lt_mul hsize (by omega)
  rw [stepsWithin]
  omega

theorem stepsWithin_of_pos (hsize : 0 < size) (h : 0 < distance) :
    stepsWithin distance size = stepsWithin (distance - size) size + 1 := by
  have hshift : (distance + size - 1) / size = (distance - 1) / size + 1 := by
    rw [show distance + size - 1 = distance - 1 + 1 * size by omega,
      Int.add_mul_ediv_right _ _ (by omega)]
  have hrest : (distance - size + size - 1) / size = (distance - 1) / size := by
    rw [Int.sub_add_cancel]
  have hnonneg : 0 ≤ (distance - 1) / size := Int.ediv_nonneg (by omega) (by omega)
  rw [stepsWithin, stepsWithin, hshift, hrest]
  omega

theorem map_range_succ (n : Nat) (a d : Int) :
    ((range (n + 1)).map fun i : Nat => a + i * d) = a :: (range n).map fun i : Nat =>
    a + d + i * d := by
  rw [range_succ_eq_map, map_cons, map_map]
  congr 1
  · simp
  · refine map_congr_left fun i _ => ?_
    show a + ((i + 1 : Nat) : Int) * d = a + d + i * d
    rw [Int.natCast_add, Int.add_mul, Int.natCast_one, Int.one_mul]
    omega

theorem rangeValues_nil (hd : d ≠ 0) (h : ¬ (0 < d ∧ a < b ∨ d < 0 ∧ b < a)) :
    rangeValues a b d = [] := by
  rw [rangeValues]
  split
  · rw [stepsWithin_of_le (by omega) (by omega)]
    rfl
  · rw [stepsWithin_of_le (by omega) (by omega)]
    rfl

theorem rangeValues_cons (h : 0 < d ∧ a < b ∨ d < 0 ∧ b < a) :
    rangeValues a b d = a :: rangeValues (a + d) b d := by
  rw [rangeValues, rangeValues]
  split
  · rw [stepsWithin_of_pos (by omega) (by omega), map_range_succ,
      show b - a - d = b - (a + d) by omega]
  · rw [stepsWithin_of_pos (by omega) (by omega), map_range_succ,
      show a - b - -d = a + d - b by omega]

/-! ### Loops -/

/-- The store in which a variable has a new value. -/
def assign (env : Text → Int) (name : Text) (n : Int) (w : Text) : Int :=
  if w = name then n else env w

/-- Whether the comparison of the variable with the bound holds. -/
def Comparison.Holds : Comparison → Int → Int → Prop
  | .less, n, bound => n < bound
  | .atMost, n, bound => n ≤ bound
  | .greater, n, bound => bound < n
  | .atLeast, n, bound => bound ≤ n

/-- Whether the comparison points in the direction of the step. -/
def Comparison.pointsUp : Comparison → Bool
  | .less => true
  | .atMost => true
  | .greater => false
  | .atLeast => false

namespace Update

/-- Whether the step goes up. -/
def up : Update → Bool
  | .behind _ up => up
  | .front up _ => up
  | .amount _ up _ _ _ => up

/-- The operand that says how far the step goes. -/
def operand : Update → Text
  | .amount _ _ _ value _ => value
  | _ => "1"

/-- The blanks in front of the operand. -/
def inner : Update → Text
  | .amount _ _ inner _ _ => inner.text
  | _ => []

/-- How the step changes the variable. -/
def change (update : Update) (env : Text → Int) : Int :=
  if update.up then valueOf env update.operand else -valueOf env update.operand

end Update

namespace Written

/-- The rounds of the loop from a store on, with the values of the variable. -/
inductive Rounds (w : Written) : (Text → Int) → List Int → Prop
  | done {env : Text → Int} {bound : Int} :
      Denotes env w.bound bound → ¬ w.comparison.Holds (env w.name) bound → Rounds w env []
  | round {env : Text → Int} {bound : Int} {values : List Int} : Denotes env w.bound bound →
      w.comparison.Holds (env w.name) bound →
      Rounds w (assign env w.name (env w.name + w.update.change env)) values →
      Rounds w env (env w.name :: values)

/-- The loop visits the values of its variable. -/
def Visits (w : Written) (env : Text → Int) (values : List Int) : Prop :=
  ∃ start, Denotes env w.start start ∧ w.Rounds (assign env w.name start) values

end Written

/-- An operand of a loop: a literal, or a variable other than that of the loop. -/
def IsOperand (name w : Text) : Prop :=
  IsLiteral w ∨ IsVariable w ∧ w ≠ name

/-- An arithmetic text over operands of a loop. -/
def IsFormula (name t : Text) : Prop :=
  ∃ tree, Means arithmetic t tree ∧ ∀ w ∈ tree.words, IsOperand name w

/-- A header whose parts are arithmetic. -/
structure Written.IsArithmetic (w : Written) : Prop where
  start : IsFormula w.name w.start
  bound : IsFormula w.name w.bound
  operand : IsOperand w.name w.update.operand
  inner : ∀ c ∈ w.update.inner, isLayout c = true

variable {w : Written} {env : Text → Int} {name t : Text} {values values' : List Int} {n : Int}

theorem valueOf_assign {word : Text} (h : IsOperand name word) (env : Text → Int) (n : Int) :
    valueOf (assign env name n) word = valueOf env word := by
  rcases h with ⟨k, rfl, -⟩ | ⟨-, hne⟩
  · rw [valueOf_decimal, valueOf_decimal]
  · rw [valueOf, valueOf, assign, if_neg hne]

theorem value_assign (h : ∀ w ∈ tree.words, IsOperand name w) (env : Text → Int) (n : Int) :
    tree.value (assign env name n) = tree.value env := by
  induction tree with
  | word w => exact valueOf_assign (h w mem_cons_self) env n
  | grouped body ih => exact ih h
  | unary s body ih =>
    have hbody := ih h
    cases s <;> simp only [Tree.value, hbody]
  | binary s left right ihleft ihright =>
    have hleft := ihleft fun w hw => h w (mem_append_left _ hw)
    have hright := ihright fun w hw => h w (mem_append_right _ hw)
    cases s <;> simp only [Tree.value, hleft, hright]

theorem Written.Rounds.unique (h : w.Rounds env values) (h' : w.Rounds env values') :
    values = values' := by
  induction h generalizing values' with
  | done hbound hstop =>
    cases h' with
    | done => rfl
    | round hbound' hgo =>
      rw [hbound.unique hbound'] at hstop
      exact absurd hgo hstop
  | round hbound hgo _ ih =>
    cases h' with
    | done hbound' hstop =>
      rw [hbound.unique hbound'] at hgo
      exact absurd hgo hstop
    | round _ _ hrest => rw [ih hrest]

theorem Written.Visits.unique (h : w.Visits env values) (h' : w.Visits env values') :
    values = values' := by
  obtain ⟨start, hstart, hrounds⟩ := h
  obtain ⟨start', hstart', hrounds'⟩ := h'
  rw [hstart.unique hstart'] at hrounds
  exact hrounds.unique hrounds'

/-- The stop of the range for a bound. -/
def Comparison.stop : Comparison → Int → Int
  | .less, bound => bound
  | .atMost, bound => bound + 1
  | .greater, bound => bound
  | .atLeast, bound => bound - 1

theorem Comparison.holds_iff {comparison : Comparison} {change : Int} (hchange : change ≠ 0)
    (hup : comparison.pointsUp = true ↔ 0 < change) (n : Int) :
    comparison.Holds n bound ↔ 0 < change ∧ n < comparison.stop bound ∨ change < 0 ∧
    comparison.stop bound < n := by
  cases comparison <;> simp only [Holds, stop, pointsUp] at * <;> simp at hup <;> omega

/-- The loop goes through the values of the range from the value of its variable on. -/
theorem Written.rounds_rangeValues {change : Int} {env₀ : Text → Int} (hchange : change ≠ 0)
    (hup : w.comparison.pointsUp = true ↔ 0 < change)
    (hbound : ∀ n, Denotes (assign env₀ w.name n) w.bound bound)
    (hstep : ∀ n, w.update.change (assign env₀ w.name n) = change)
    (n : Int) :
    w.Rounds (assign env₀ w.name n) (rangeValues n (w.comparison.stop bound) change) := by
  -- Each round brings the variable nearer to the stop.
  generalize hfuel :
    (if 0 < change then w.comparison.stop bound - n else n - w.comparison.stop bound).toNat = fuel
  induction fuel using Nat.strongRecOn generalizing n with
  | ind fuel ih =>
    have hname : assign env₀ w.name n w.name = n := if_pos rfl
    by_cases hgo : w.comparison.Holds n bound
    · have hahead := (Comparison.holds_iff hchange hup n).mp hgo
      have hassign :
          assign (assign env₀ w.name n) w.name (n + change) = assign env₀ w.name (n + change) := by
        funext x
        simp only [assign]
        split <;> rfl
      have hrest := ih _ (by split at hfuel <;> split <;> omega) (n + change) rfl
      have hround :=
        Rounds.round (hbound n) (by rwa [hname]) (by rw [hname, hstep, hassign]; exact hrest)
      rw [rangeValues_cons hahead]
      rwa [hname] at hround
    · rw [rangeValues_nil hchange fun hahead =>
        hgo ((Comparison.holds_iff hchange hup n).mpr hahead)]
      exact .done (hbound n) (by rwa [hname])

/-! ### From headers to ranges -/

theorem isName_of_digits {digits : Text} (h : Means arithmetic t tree) (hsub : ∀ c ∈ digits, c ∈ t)
    (hne : digits ≠ []) (hdigits : ∀ c ∈ digits, isDigit c = true) : IsName digits := by
  refine ⟨hne, fun c hc => ?_⟩
  rcases h.1.chars c (hsub c hc) with hlayout | hword | ⟨entry, hentry, hmem⟩
  · have hdigit := isDigit_eq_false_of_isBlank (isBlank_of_isLayout hlayout)
    rw [hdigits c hc] at hdigit
    cases hdigit
  · exact hword
  · have hall : ∀ entry ∈ arithmetic.symbols, ∀ d ∈ entry.1, isDigit d = false := by decide
    have hdigit := hall entry hentry c hmem
    rw [hdigits c hc] at hdigit
    cases hdigit

/-- A formula that is an integer literal is read, and its neighbours can be written. -/
theorem exists_readInt (h : IsFormula name t) (hstrip : strip t = t)
    (hliteral : integerLiteral.matchesStart t = true) :
    ∃ m : Int, readInt t = .ok m ∧ m.natAbs + 1 < capacity ∧ ∀ env, Denotes env t m := by
  obtain ⟨tree, hmeans, hwords⟩ := h
  obtain ⟨digits, ht, hne, hdigits⟩ := integerLiteral_digits hliteral fun hlast =>
    absurd ((strip_eq_self_iff.mp hstrip).2 _ hlast) (by decide)
  have hsub : ∀ c ∈ digits, c ∈ t := by
    rcases ht with rfl | rfl
    · exact fun c hc => hc
    · exact fun c hc => mem_cons_of_mem _ hc
  have hname := isName_of_digits hmeans hsub hne hdigits
  -- The only operand is the run of digits, and a variable does not start with a digit.
  have hoperand : digits ∈ tree.words → ∃ n : Nat, digits = decimal n ∧ n + 1 < capacity := by
    intro hmem
    rcases hwords digits hmem with ⟨n, rfl, hlength⟩ | ⟨⟨-, hstart⟩, -⟩
    · refine ⟨n, rfl, ?_⟩
      have hfit := natOfDigits_succ_lt hlength
      rwa [natOfDigits_decimal] at hfit
    · obtain ⟨c, rest, rfl⟩ := exists_cons_of_ne_nil hne
      have hdigit := hstart c rfl
      rw [hdigits c mem_cons_self] at hdigit
      cases hdigit
  rcases ht with rfl | rfl
  · obtain rfl := hmeans.unique (means_word hname)
    obtain ⟨n, rfl, hfit⟩ := hoperand mem_cons_self
    have hsigned : decimal n = signedDecimal n := (if_neg (by omega)).symm
    refine ⟨n, ?_, by simpa using hfit, fun env => ?_⟩
    · rw [hsigned]
      exact readInt_signedDecimal (by simp only [Int.natAbs_natCast]; omega)
    · rw [hsigned]
      exact denotes_signedDecimal env n
  · obtain rfl := hmeans.unique (means_minus_word hname)
    obtain ⟨n, rfl, hfit⟩ := hoperand mem_cons_self
    refine ⟨-n, ?_, by simpa using hfit, fun env => ⟨_, means_minus_word hname, ?_⟩⟩
    · rw [readInt, readNat_decimal (by omega)]
      rfl
    · rw [Tree.value, Tree.value, valueOf_decimal]

/-- A bound is shifted by one, as a text and as a number. -/
theorem exists_offsetBound (h : IsFormula name t) (hstrip : strip t = t) {delta : Int}
    (hdelta : delta = 1 ∨ delta = -1) :
    ∃ out, offsetBound t delta = .ok out ∧ ',' ∉ out ∧ ∀ env n, Denotes env t n →
    Denotes env out (n + delta) := by
  rw [offsetBound]
  simp only [hstrip]
  by_cases hliteral : integerLiteral.matchesStart t = true
  · obtain ⟨m, hread, hfit, hdenotes⟩ := exists_readInt h hstrip hliteral
    refine ⟨signedDecimal (m + delta), ?_, ?_, fun env n hn => ?_⟩
    · rw [if_pos hliteral, hread]
      show writeInt (m + delta) = _
      rw [writeInt, if_neg (Nat.not_lt.mpr (length_decimal_le (by omega)))]
    · intro hmem
      rcases mem_signedDecimal hmem with hc | hc <;> cases hc
    · rw [hn.unique (hdenotes env)]
      exact denotes_signedDecimal env _
  · obtain ⟨tree, hmeans, -⟩ := h
    have hcomma : ',' ∉ t := hmeans.not_mem (by decide) (by decide) (by decide)
    rw [if_neg hliteral]
    rcases hdelta with rfl | rfl
    · exact ⟨t ++ " + 1", by rw [if_pos (by decide), append_assoc]; rfl, by simpa using hcomma,
        fun env n hn => hn.succ⟩
    · exact ⟨t ++ " - 1", by rw [if_neg (by decide), append_assoc]; rfl, by simpa using hcomma,
        fun env n hn => hn.pred⟩

theorem Update.up_step (update : Update) : update.step.up = update.up := by
  cases update <;> rfl

theorem Update.amount_step (update : Update) :
    update.step.amount = update.inner.filter (· ≠ ' ') ++ update.operand := by
  cases update <;> rfl

theorem IsOperand.isName {word : Text} (h : IsOperand name word) : IsName word := by
  rcases h with ⟨n, rfl, -⟩ | ⟨hvariable, -⟩
  · exact isName_decimal n
  · exact hvariable.1

/-- The last argument of the range of a step: none for a step of one upwards. -/
def Step.argument (step : Step) : Text :=
  if step.up then if step.amount = ['1'] then [] else ", " ++ step.amount else ", " ++
    negate step.amount

/-- The stop of the range for the text of a bound. -/
def Comparison.stopText : Comparison → Text → Except Fault Text
  | .less, bound => .ok bound
  | .atMost, bound => offsetBound bound 1
  | .greater, bound => .ok bound
  | .atLeast, bound => offsetBound bound (-1)

/-- A loop whose comparison points in the direction of its step has a range, if its bound can be
shifted. -/
theorem rangeArguments_of_stopText {stop : Text} (hagrees : h.comparison.pointsUp = h.step.up)
    (hstop : h.comparison.stopText h.bound = .ok stop) :
    rangeArguments h = .ok (some (h.start ++ ", " ++ stop ++ h.step.argument)) := by
  obtain ⟨name, start, comparison, bound, up, amount⟩ := h
  have hup : ∀ stop : Text,
      (if amount = ['1'] then start ++ ", " ++ stop else start ++ ", " ++ stop ++ ", " ++ amount) =
      start ++ ", " ++ stop ++ (Step.mk true amount).argument := by
    intro stop
    rw [Step.argument, if_pos rfl]
    split <;> simp
  have hdown : ∀ stop : Text, start ++ ", " ++ stop ++ ", " ++ negate amount =
      start ++ ", " ++ stop ++ (Step.mk false amount).argument := fun stop => append_assoc _ _ _
  cases comparison with
  | less =>
    cases hagrees
    cases hstop
    rw [← hup]
    rfl
  | atMost =>
    cases hagrees
    rw [← hup]
    simp only [rangeArguments, show offsetBound bound 1 = .ok stop from hstop]
    rfl
  | greater =>
    cases hagrees
    cases hstop
    rw [← hdown]
    rfl
  | atLeast =>
    cases hagrees
    rw [← hdown]
    simp only [rangeArguments, show offsetBound bound (-1) = .ok stop from hstop]
    rfl

theorem rangeArguments_against (hagainst : h.comparison.pointsUp ≠ h.step.up) :
    rangeArguments h = .ok none := by
  obtain ⟨name, start, comparison, bound, up, amount⟩ := h
  cases comparison <;> cases up <;> first | rfl | exact absurd rfl hagainst

theorem Written.IsArithmetic.exists_stopText (h : w.IsArithmetic) :
    ∃ stop, w.comparison.stopText w.bound = .ok stop ∧ ',' ∉ stop ∧
      ∀ env n, Denotes env w.bound n → Denotes env stop (w.comparison.stop n) := by
  have hcomma : ',' ∉ w.bound := by
    obtain ⟨tree, hmeans, -⟩ := h.bound
    exact hmeans.not_mem (by decide) (by decide) (by decide)
  cases w.comparison with
  | less | greater => exact ⟨w.bound, rfl, hcomma, fun env n hn => hn⟩
  | atMost => exact exists_offsetBound h.bound w.isPart_bound.stripped (.inl rfl)
  | atLeast => exact exists_offsetBound h.bound w.isPart_bound.stripped (.inr rfl)

/-- The step of an arithmetic header as the last argument of a range. -/
theorem Written.IsArithmetic.argument (h : w.IsArithmetic) (env : Text → Int) :
    w.update.step.argument = [] ∧ w.update.change env = 1 ∨
      ∃ z, w.update.step.argument = ',' :: z ∧ ',' ∉ z ∧ Denotes env z (w.update.change env) := by
  have hname := h.operand.isName
  have hgap : ∀ c ∈ w.update.inner.filter (· ≠ ' '), isLayout c = true :=
    fun c hc => h.inner c (mem_of_mem_filter hc)
  have hamount : Denotes env w.update.step.amount (valueOf env w.update.operand) := by
    rw [Update.amount_step]
    exact (denotes_word hname).layouts hgap
  have hspace : ∀ c ∈ [' '], isLayout c = true := by decide
  rw [Step.argument, Update.change, Update.up_step]
  split
  · split
    · rename_i hone
      rw [hone] at hamount
      exact .inl ⟨rfl, hamount.unique (denotes_signedDecimal env 1)⟩
    · refine .inr ⟨' ' :: w.update.step.amount, rfl, ?_, hamount.layouts hspace⟩
      obtain ⟨tree, hmeans, -⟩ := hamount
      simpa using hmeans.not_mem (c := ',') (by decide) (by decide) (by decide)
  · have hstrip : strip w.update.step.amount = w.update.operand := by
      rw [Update.amount_step]
      have hblank := strip_append (fun c hc => isBlank_of_isLayout (hgap c hc)) hname.stripped
        (forall_mem_nil _)
      rwa [append_nil] at hblank
    rw [negate_of_strip hstrip hname]
    refine .inr ⟨' ' :: '-' :: w.update.operand, rfl, ?_, ?_⟩
    · simpa using hname.not_mem (d := ',') rfl
    · have hminus : Denotes env ('-' :: w.update.operand) (-valueOf env w.update.operand) :=
        ⟨_, means_minus_word hname, rfl⟩
      exact hminus.layouts hspace

theorem Ranges.unique (h : Ranges env t values) (h' : Ranges env t values') : values = values' := by
  rw [Ranges] at h h'
  split at h <;> rename_i hpieces
  · rw [hpieces] at h'
    obtain ⟨a, b, ha, hb, rfl⟩ := h
    obtain ⟨a', b', ha', hb', rfl⟩ := h'
    rw [ha.unique ha', hb.unique hb']
  · rw [hpieces] at h'
    obtain ⟨a, b, d, ha, hb, hd, -, rfl⟩ := h
    obtain ⟨a', b', d', ha', hb', hd', -, rfl⟩ := h'
    rw [ha.unique ha', hb.unique hb', hd.unique hd']
  · cases h

/-- The range of an arithmetic header has the values from its start to its stop. -/
theorem Written.IsArithmetic.ranges (h : w.IsArithmetic) {stop : Text} {a b : Int}
    (hstart : Denotes env w.start a)
    (hstop : Denotes env stop b) (hcomma : ',' ∉ stop) (hchange : w.update.change env ≠ 0) :
    Ranges env (w.start ++ ", " ++ stop ++ w.update.step.argument)
    (rangeValues a b (w.update.change env)) := by
  have hstartComma : ',' ∉ w.start := by
    obtain ⟨tree, hmeans, -⟩ := hstart
    exact hmeans.not_mem (by decide) (by decide) (by decide)
  have hspaced : ',' ∉ ' ' :: stop := by simpa using hcomma
  have hstop' : Denotes env (' ' :: stop) b :=
    hstop.layouts (show ∀ c ∈ [' '], isLayout c = true by decide)
  have hshape :
      ∀ rest, w.start ++ ", " ++ stop ++ rest = w.start ++ ',' :: (' ' :: stop ++ rest) := by
    intro rest
    rw [append_assoc, append_assoc]
    rfl
  rw [Ranges, hshape, splitOn_append, splitOn_of_not_mem hstartComma]
  rcases h.argument env with ⟨hnone, hone⟩ | ⟨z, hz, hzcomma, hdenotes⟩
  · rw [hnone, append_nil, splitOn_of_not_mem hspaced, hone]
    exact ⟨a, b, hstart, hstop', rfl⟩
  · rw [hz, splitOn_append, splitOn_of_not_mem hspaced, splitOn_of_not_mem hzcomma]
    exact ⟨a, b, _, hstart, hstop', hdenotes, hchange, rfl⟩

theorem Written.IsArithmetic.visits (h : w.IsArithmetic)
    (hagrees : w.comparison.pointsUp = w.update.up)
    (hpos : 0 < valueOf env w.update.operand) {a : Int} (hstart : Denotes env w.start a)
    (hbound : Denotes env w.bound bound) :
    w.Visits env (rangeValues a (w.comparison.stop bound) (w.update.change env)) := by
  refine ⟨a, hstart, rounds_rangeValues ?_ ?_ (fun n => ?_) (fun n => ?_) a⟩
  · rw [Update.change]
    split <;> omega
  · rw [hagrees, Update.change]
    cases w.update.up <;> simp <;> omega
  · obtain ⟨tree, hmeans, hwords⟩ := h.bound
    obtain ⟨tree', hmeans', rfl⟩ := hbound
    rw [← hmeans.unique hmeans']
    exact ⟨tree, hmeans, value_assign hwords env n⟩
  · rw [Update.change, Update.change, valueOf_assign h.operand]

/-- The loop of an arithmetic header visits exactly the values of its range, in order. It has a
range unless its comparison points against its step. -/
theorem Written.visits_iff_ranges (w : Written) (h : w.IsArithmetic) :
    ∃ result, (Header.parse? w.text).map rangeArguments = some (.ok result) ∧
      (result = none ↔ w.comparison.pointsUp ≠ w.update.up) ∧
      ∀ out ∈ result, ∀ env : Text → Int, 0 < valueOf env w.update.operand →
        (∃ values, w.Visits env values) ∧ ∀ values, w.Visits env values ↔
        Ranges env out values := by
  rw [w.parse?_text, Option.map_some]
  by_cases hagrees : w.comparison.pointsUp = w.update.up
  · obtain ⟨stop, hstop, hcomma, hdenotes⟩ := h.exists_stopText
    refine ⟨_, congrArg some (rangeArguments_of_stopText (by rwa [header, Update.up_step]) hstop),
      by simp [hagrees], ?_⟩
    rintro out ⟨⟩ env hpos
    obtain ⟨startTree, hstart, -⟩ := h.start
    obtain ⟨boundTree, hbound, -⟩ := h.bound
    have hchange : w.update.change env ≠ 0 := by
      rw [Update.change]
      split <;> omega
    have hvisits := h.visits hagrees hpos ⟨startTree, hstart, rfl⟩ ⟨boundTree, hbound, rfl⟩
    have hranges :=
      h.ranges ⟨startTree, hstart, rfl⟩ (hdenotes env _ ⟨boundTree, hbound, rfl⟩) hcomma hchange
    refine ⟨⟨_, hvisits⟩, fun values => ⟨fun hv => ?_, fun hr => ?_⟩⟩
    · rw [hv.unique hvisits]
      exact hranges
    · rw [hr.unique hranges]
      exact hvisits
  · exact ⟨none, congrArg some (rangeArguments_against (by rwa [header, Update.up_step])), by
    simp [hagrees],
    fun out hout => by cases hout⟩

/-- A loop that doubles its variable: `for (i = 1; i < 4; i += i)`. -/
def Written.doubling : Written :=
  .ofRange none .less (.amount .space true .space "i" (by decide))
    (show IsName "i" from ⟨by decide, by decide⟩)
    (show IsPart "1" from ⟨by decide, by decide, by decide⟩)
    (show IsPart "4" from ⟨by decide, by decide, by decide⟩)

/-- A step by the variable itself changes from round to round, and the step of a range does not: the
loop visits one and two, its range goes on to three. -/
theorem Written.ranges_doubling_ne_visits :
    (Header.parse? doubling.text).map rangeArguments = some (.ok (some "1, 4, i")) ∧
      doubling.Visits (fun _ => 1) [1, 2] ∧ Ranges (fun _ => 1) "1, 4, i" [1, 2, 3] ∧
      ¬ Ranges (fun _ => 1) "1, 4, i" [1, 2] := by
  have hone : ∀ env, Denotes env "1" 1 := fun env => denotes_signedDecimal env 1
  have hfour : ∀ env, Denotes env "4" 4 := fun env => denotes_signedDecimal env 4
  have hspace : ∀ c ∈ [' '], isLayout c = true := by decide
  have hranges : Ranges (fun _ => 1) "1, 4, i" [1, 2, 3] :=
    ⟨1, 4, 1, hone _, (hfour _).layouts hspace,
      (denotes_word (w := "i") ⟨by decide, by decide⟩).layouts hspace, by decide, by decide⟩
  refine ⟨?_, ⟨1, hone _, ?_⟩, hranges, fun h => ?_⟩
  · rw [doubling.parse?_text]
    rfl
  · exact .round (hfour _) (show (1 : Int) < 4 by decide) <|
      .round (hfour _) (show (2 : Int) < 4 by decide) <|
      .done (hfour _) (show ¬ (4 : Int) < 4 by decide)
  · cases h.unique hranges

/-- A loop that counts down in steps of a variable: `for (int i = 2 * (n - 1); i >= -3; i -= k)`. -/
def Written.countdown : Written :=
  .ofRange (some (.keyword "int" (by decide) (by decide))) .atLeast
    (.amount .space false .space "k" (by decide))
    (show IsName "i" from ⟨by decide, by decide⟩)
    (show IsPart "2 * (n - 1)" from ⟨by decide, by decide, by decide⟩)
    (show IsPart "-3" from ⟨by decide, by decide, by decide⟩)

/-- The parts of the loop that counts down are arithmetic. -/
theorem Written.isArithmetic_countdown : countdown.IsArithmetic where
  start := by
    have hlaid : Laid arithmetic "2 * (n - 1)"
        [.word "2", .sign .times, .opening, .word "n", .sign .minus, .word "1", .closing] :=
      .word (w := "2") (t := " * (n - 1)") ⟨by decide, by decide⟩ (by decide) rfl <|
        .layout (by decide) <|
      .symbol (x := "*") (t := " (n - 1)") (by decide) (longest_sign (by decide)) <|
      .layout (by decide) <|
      .symbol (x := "(") (t := "n - 1)") (by decide) (longest_sign (by decide)) <|
      .word (w := "n") (t := " - 1)") ⟨by decide, by decide⟩ (by decide) rfl <|
      .layout (by decide) <|
      .symbol (x := "-") (t := " 1)") (by decide) (longest_sign (by decide)) <|
      .layout (by decide) <| .word (w := "1") (t := ")") ⟨by decide, by decide⟩ (by decide) rfl <|
      .symbol (x := ")") (t := "") (by decide) (longest_sign (by decide)) .nil
    refine ⟨.binary .times (.word "2") (.grouped (.binary .minus (.word "n") (.word "1"))),
      ⟨hlaid, ?_⟩, ?_⟩
    · exact .binary rfl (by decide) (.word _ _)
        (.grouped _ (.binary rfl (by decide) (.word _ _) (.word _ _)))
    · intro w hw
      simp only [Tree.words, mem_append, mem_singleton] at hw
      rcases hw with rfl | rfl | rfl
      · exact .inl ⟨2, by decide, by decide⟩
      · exact .inr ⟨⟨⟨by decide, by decide⟩, by decide⟩, by decide⟩
      · exact .inl ⟨1, by decide, by decide⟩
  bound := by
    refine ⟨_, means_minus_word (w := "3") ⟨by decide, by decide⟩, ?_⟩
    intro w hw
    obtain rfl : w = "3" := by simpa [Tree.words] using hw
    exact .inl ⟨3, by decide, by decide⟩
  operand := .inr ⟨⟨⟨by decide, by decide⟩, by decide⟩, by decide⟩
  inner := by decide

/-- A store with four for `n` and three for everything else. -/
def Written.countdownStore (w : Text) : Int :=
  if w = ['n'] then 4 else 3

/-- The loop that counts down visits what its range lists. -/
theorem Written.visits_iff_ranges_countdown :
    countdown.IsArithmetic ∧ 0 < valueOf countdownStore countdown.update.operand ∧
      ∃ out, (Header.parse? countdown.text).map rangeArguments = some (.ok (some out)) ∧
        (∃ values, countdown.Visits countdownStore values) ∧
        ∀ values, countdown.Visits countdownStore values ↔ Ranges countdownStore out values := by
  have hpos : 0 < valueOf countdownStore countdown.update.operand := by decide
  obtain ⟨result, hresult, hnone, hvisits⟩ := visits_iff_ranges countdown isArithmetic_countdown
  cases result with
  | none => exact absurd rfl (hnone.mp rfl)
  | some out => exact ⟨isArithmetic_countdown, hpos, out, hresult, hvisits out rfl _ hpos⟩

end CodeConverter.Loop
