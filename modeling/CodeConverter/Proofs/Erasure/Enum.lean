import CodeConverter.Proofs.Erasure.Signature
import CodeConverter.Proofs.Line.Classified
import CodeConverter.Proofs.Text.Numeral

/-!
# Enums

The members of an enum are numbered alike on one line and on a line each: a member has the number it
is given, or one more than the member before it, or zero. The number of the next member is kept in
the state from line to line (`run_rows`) and handed on from part to part within a line
(`enumEntries_members`).
-/

namespace CodeConverter

open List Text

namespace Pattern

variable {p q : Pattern} {s : State} {rest t : Text} {n : Nat} {groups result : List (Nat × Text)}
    {c : Char}

/-- What is read behind a text: blanks, perhaps a symbol, and the end. -/
def ending (p : Pattern) : State → Option State :=
  first blanks (first (maybe p) (first .atEnd some))

section

variable (hp : ∀ (v : State) (k : State → Option State), v.ahead.head? ≠ some c →
    first p k v = none)

include hp

/-- The end is not reached over a text that is not blank and does not hold the symbol. -/
theorem ending_eq_none (hahead : s.ahead = t ++ rest) (hblank : ∃ x ∈ t, isBlank x = false)
    (hnot : c ∉ t) : ending p s = none := by
  refine first_blanks_none hahead hblank fun v a b ha hab hb hv => ?_
  have hhead : v.ahead.head? ≠ some c := by
    intro hc
    rw [hv, head?_append_of_ne_nil _ hb] at hc
    exact hnot (hab ▸ mem_append_right a (mem_of_mem_head? hc))
  have hend : first .atEnd some v = none := by
    refine first_eq_none fun _ _ hreads => ?_
    have hisEnd := (reads_atEnd_iff.mp hreads).2.2
    rw [State.isEnd, Bool.or_eq_true, decide_eq_true_eq, decide_eq_true_eq, hv] at hisEnd
    obtain ⟨x, hx, hxblank⟩ := hblank
    have hall : ∀ y ∈ b ++ rest, isBlank y = true := by
      rcases hisEnd with h | h <;> rw [h] <;> decide
    rw [hab] at hx
    rw [(forall_mem_append.mpr ⟨ha, fun y hy => hall y (mem_append_left _ hy)⟩) x hx] at hxblank
    cases hxblank
  rw [maybe, first_alt, hp _ _ hhead]
  simpa [first, outcomes] using hend

/-- A lazy run goes to the first place where the end is reached. -/
theorem Completes.group_ending (h : Completes (ending p) rest ((n, t) :: groups) result)
    (hlast : ∀ x ∈ t.getLast?, isBlank x = false) (hnot : c ∉ t)
    (hq : ∀ {k : State → Option State} {s u : State}, s.ahead = t ++ rest →
      (∀ a b, t = a ++ b → b ≠ [] → k (s.past a (b ++ rest)) = none) → k (s.past t rest) = some u →
      first q k s = some u) :
    Completes (first (.group n q) (ending p)) (t ++ rest) groups result := by
  refine h.group_lazy (fun v a b hab hb hahead => ?_) hq
  obtain ⟨front, x, rfl⟩ := (eq_nil_or_concat' b).resolve_left hb
  exact ending_eq_none hp hahead ⟨x, by simp, hlast x (by simp [hab])⟩ fun hc =>
    hnot (hab ▸ mem_append_right a hc)

end

end Pattern

namespace Erasure

open Literal Pattern Program Grammar.TypeScript

/-! ## Members -/

/-- Digits behind a minus sign or none. -/
def signed (negative : Bool) (digits : Text) : Text :=
  if negative then '-' :: digits else digits

/-- An initializer with the blanks on both sides of the equals sign. -/
structure Initializer where
  before : Text
  after : Text
  negative : Bool
  digits : Text
  blank : ∀ c ∈ before ++ after, isBlank c = true ∧ c ≠ '\n'
  nonempty : digits ≠ []
  decimal : ∀ c ∈ digits, isDigit c = true
  short : digits.length < digitLimit

/-- The initializer as it is written. -/
def Initializer.value (i : Initializer) : Text :=
  signed i.negative i.digits

/-- The number that is given. -/
def Initializer.number (i : Initializer) : Int :=
  if i.negative then -natOfDigits i.digits else natOfDigits i.digits

/-- A member, with a number or without. -/
structure Member where
  name : Text
  initializer : Option Initializer
  isName : IsName name

namespace Member

/-- What stands behind the name. -/
def tail (m : Member) : Text :=
  m.initializer.elim [] fun i => i.before ++ ('=' :: (i.after ++ i.value))

/-- The member as it is written. -/
def text (m : Member) : Text :=
  m.name ++ m.tail

/-- The number of the member, given the one it has without an initializer. -/
def number (m : Member) (next : Int) : Int :=
  m.initializer.elim next Initializer.number

/-- The entry of the object, given the number of the member without an initializer. -/
def entry (m : Member) (next : Int) : Text :=
  m.name ++ ": " ++ m.initializer.elim (signedDecimal next) Initializer.value

end Member

/-- The entries of the object, given the number of the first member without an initializer. -/
def entries : Int → List Member → List Text
  | _, [] => []
  | next, m :: members => m.entry next :: entries (m.number next + 1) members

/-- The number after the members. -/
def numberAfter : Int → List Member → Int
  | next, [] => next
  | next, m :: members => numberAfter (m.number next + 1) members

variable {m : Member} {i : Initializer} {members : List Member} {s : State}
    {name t comma digits : Text} {next : Int}

theorem matchesStart_signed (negative : Bool) (hne : digits ≠ [])
    (hdigits : ∀ c ∈ digits, isDigit c = true) :
    Loop.integerLiteral.matchesStart (signed negative digits) = true := by
  have hrun := (Completes.atEnd []).many1 hne hdigits (by simp)
  rw [append_nil] at hrun
  have hsigned : Completes (first (maybe "-") (first (many1 isDigit) (first .atEnd some)))
      (signed negative digits) [] [] := by
    cases negative with
    | false =>
      refine hrun.maybe_skip fun s hs _ => first_symbol_none fun hhead => ?_
      rw [hs] at hhead
      exact absurd (hdigits '-' (mem_of_mem_head? hhead)) (by decide)
    | true => exact hrun.literal.alt_left
  obtain ⟨u, hu, -⟩ := hsigned (.start (signed negative digits)) rfl rfl
  obtain ⟨f, hf, -⟩ := matchStart_of_first (p := Loop.integerLiteral) (u := u)
    (by simp only [Loop.integerLiteral, first_append]; exact first_atStart rfl hu)
  rw [matchesStart, hf]
  rfl

namespace Initializer

theorem mem_value {c : Char} (hc : c ∈ i.value) : isDigit c = true ∨ c = '-' := by
  rw [value, signed] at hc
  split at hc
  · exact (mem_cons.mp hc).symm.imp_left (i.decimal c)
  · exact .inl (i.decimal c hc)

theorem value_ne_nil (i : Initializer) : i.value ≠ [] := by
  rw [value, signed]
  split
  · exact cons_ne_nil _ _
  · exact i.nonempty

theorem isBlank_value {c : Char} (hc : c ∈ i.value) : isBlank c = false := by
  rcases mem_value hc with hdigit | rfl
  · rw [← Bool.not_eq_true]
    intro hblank
    rw [isDigit_eq_false_of_isBlank hblank] at hdigit
    cases hdigit
  · rfl

theorem readInt_value (i : Initializer) : readInt i.value = .ok i.number := by
  have hread : readNat i.digits = .ok (natOfDigits i.digits) := if_neg (Nat.not_lt.mpr i.short.le)
  rw [value, number, signed]
  split
  · rw [readInt, hread]
    rfl
  · rw [readInt, hread]
    · rfl
    · intro u hu
      exact absurd (i.decimal '-' (hu ▸ mem_cons_self)) (by decide)

end Initializer

/-- An initializer is read up to the comma or the end. -/
theorem completes_initializer (i : Initializer) {groups result : List (Nat × Text)}
    (h : Completes (ending ",") comma ((2, i.value) :: groups) result) :
    Completes (first ("=" ++ blanks ++ group 2 something) (ending ","))
    ('=' :: (i.after ++ (i.value ++ comma))) groups result := by
  have hother : ∀ d, isDigit d = false → d ≠ '-' → d ∉ i.value := by
    intro d hdigit hsign hmem
    rcases Initializer.mem_value hmem with hd | rfl
    · rw [hd] at hdigit
      cases hdigit
    · exact hsign rfl
  have hvalue :
      Completes (first (group 2 something) (ending ",")) (i.value ++ comma) groups result :=
    h.group_ending (fun v k => first_symbol_none) (fun x hx =>
      Initializer.isBlank_value (mem_of_getLast? hx))
      (hother ',' (by decide) (by decide)) fun hahead hnone hk =>
        first_few1 hahead i.value_ne_nil
          (fun c hc =>
          decide_eq_true (ne_of_mem_of_not_mem hc (hother '\n' (by decide) (by decide)))) hnone hk
  have hhead : ∀ c ∈ (i.value ++ comma).head?, isBlank c = false := by
    intro c hc
    rw [head?_append_of_ne_nil _ i.value_ne_nil] at hc
    exact Initializer.isBlank_value (mem_of_mem_head? hc)
  rw [first_append, first_append]
  exact (hvalue.many (fun c hc => (i.blank c (mem_append_right _ hc)).1) hhead).literal

/-- A member is read with its name and its value. -/
theorem matchStart_enumMember (m : Member) (hcomma : comma = [] ∨ comma = [',']) :
    ∃ f, enumMember.matchStart (m.text ++ comma) = some f ∧ f.group 1 = m.name ∧
      f.group? 2 = m.initializer.map Initializer.value := by
  have hhead : ∀ c ∈ comma.head?, isBlank c = false := by rcases hcomma with rfl | rfl <;> decide
  have hend : ∀ groups, Completes (ending ",") comma groups groups := by
    intro groups
    have hmaybe : Completes (first (maybe ",") (first .atEnd some)) comma groups groups := by
      rcases hcomma with rfl | rfl
      · exact (Completes.atEnd groups).maybe_skip fun s hs _ => first_symbol_none (by simp [hs])
      · exact (Completes.atEnd groups).literal.alt_left
    exact hmaybe.many (forall_mem_nil _) hhead
  have htail :
      Completes (first blanks (first (maybe ("=" ++ blanks ++ group 2 something)) (ending ",")))
      (m.tail ++ comma) [(1, m.name)] (m.initializer.toList.map (fun i => (2, i.value)) ++
      [(1, m.name)]) := by
    rw [Member.tail]
    cases m.initializer with
    | none =>
      refine Completes.many ((hend _).maybe_skip fun s hs _ => ?_) (forall_mem_nil _) hhead
      rw [first_append, first_append]
      exact first_symbol_none (by rw [hs]; rcases hcomma with rfl | rfl <;> decide)
    | some i =>
      have hvalue := completes_initializer i (hend ((2, i.value) :: [(1, m.name)]))
      rw [Option.elim_some, append_assoc, cons_append, append_assoc]
      exact hvalue.alt_left.many (fun c hc => (i.blank c (mem_append_left _ hc)).1)
        (by simp [isBlank])
  have hword : ∀ c ∈ (m.tail ++ comma).head?, isWord c = false := by
    rw [Member.tail]
    cases m.initializer with
    | none => rcases hcomma with rfl | rfl <;> decide
    | some i =>
      intro c hc
      cases hbefore : i.before with
      | nil =>
        rw [Option.elim_some, hbefore] at hc
        obtain rfl : '=' = c := Option.some.inj hc
        decide
      | cons b before =>
        rw [Option.elim_some, hbefore] at hc
        obtain rfl : b = c := Option.some.inj hc
        exact isWord_eq_false_of_isBlank (i.blank b (by simp [hbefore])).1
  obtain ⟨u, hu, hgroups⟩ :=
    htail.group
      (p := oneOf [word, .char (among "\"'") ++ many (except "\"'") ++ .char (among "\"'")])
    (fun hahead hk => first_alt_left (first_many1 hahead m.isName.1 m.isName.2 hword hk))
    (.start (m.name ++ (m.tail ++ comma))) rfl rfl
  obtain ⟨f, hf, hgroup⟩ := matchStart_of_first (p := enumMember) (u := u)
    (by simp only [enumMember, first_append]; exact first_atStart rfl hu)
  rw [← append_assoc] at hf
  refine ⟨f, hf, ?_, ?_⟩
  · rw [Match.group, hgroup, hgroups]
    cases m.initializer <;> rfl
  · rw [hgroup, hgroups]
    cases m.initializer <;> rfl

/-- A member becomes its entry, and the next one is numbered after it. -/
theorem enumEntry_member {member : Text} (hmember : strip member = m.text ++ comma)
    (hcomma : comma = [] ∨ comma = [',']) (hnext : next.natAbs < capacity) :
    enumEntry (some next) member = .ok (some (m.number next + 1), m.entry next) := by
  obtain ⟨f, hf, hname, hvalue⟩ := matchStart_enumMember m hcomma
  simp only [enumEntry, hmember, hf, hname, hvalue]
  rw [Member.number, Member.entry]
  cases m.initializer with
  | none =>
    have hwrite : writeInt next = .ok (signedDecimal next) :=
      if_neg (Nat.not_lt.mpr (length_decimal_le hnext))
    have hliteral : Loop.integerLiteral.matchesStart (signedDecimal next) = true := by
      have hsigned : signedDecimal next = signed (next < 0) (decimal next.natAbs) := by
        simp [signedDecimal, signed]
      rw [hsigned]
      exact matchesStart_signed _ (isName_decimal _).1 fun c hc =>
        isDigit_of_isDigit (isDigit_of_mem_decimal hc)
    simp only [Option.map_none, nextValue, hwrite, bind, Except.bind, hliteral, if_true,
      readInt_signedDecimal hnext]
    rfl
  | some i =>
    have hliteral : Loop.integerLiteral.matchesStart i.value = true :=
      matchesStart_signed _ i.nonempty i.decimal
    simp only [Option.map_some, bind, Except.bind, pure, Except.pure, hliteral, if_true,
      i.readInt_value]
    rfl

theorem Member.natAbs_number_lt {k : Nat} (m : Member) (hk : 2 * k ≤ capacity)
    (hnext : next.natAbs + (k + 1) < capacity) : (m.number next + 1).natAbs + k < capacity := by
  rw [Member.number]
  cases m.initializer with
  | none =>
    rw [Option.elim_none]
    omega
  | some i =>
    have hbound := ten_mul_natOfDigits_le i.short
    rw [Option.elim_some, Initializer.number]
    split <;> omega

/-- The parts of a line become the entries of the object. -/
theorem enumEntries_members {parts : List Text} (hparts : parts.map strip = members.map Member.text)
    (hmany : 2 * members.length ≤ capacity) (hnext : next.natAbs + members.length < capacity) :
    enumEntries (some next) parts = .ok (some (numberAfter next members),
    entries next members) := by
  induction members generalizing next parts with
  | nil =>
    obtain rfl := map_eq_nil_iff.mp hparts
    rfl
  | cons m members ih =>
    obtain ⟨part, parts, rfl, hpart, hparts⟩ := map_eq_cons_iff.mp hparts
    rw [length_cons] at hmany hnext
    have hentry :=
      @enumEntry_member m [] next part (by rw [hpart, append_nil]) (.inl rfl) (by omega)
    have hlater := ih hparts (by omega) (m.natAbs_number_lt (by omega) hnext)
    simp only [enumEntries, hentry, hlater, bind, Except.bind]
    rfl

/-! ## Texts of members -/

/-- The characters of members. -/
def isMemberChar (c : Char) : Bool :=
  isWord c || isBlank c && c ≠ '\n' || isDigit c || c = '=' || c = '-'

namespace Member

theorem isMemberChar_of_mem {c : Char} (hc : c ∈ m.text) : isMemberChar c = true := by
  rw [text, tail] at hc
  simp only [isMemberChar, Bool.or_eq_true, Bool.and_eq_true, decide_eq_true_eq]
  rcases mem_append.mp hc with hname | htail
  · simp [m.isName.2 c hname]
  · cases hi : m.initializer with
    | none => simp [hi] at htail
    | some i =>
      simp only [hi, Option.elim_some, mem_append, mem_cons] at htail
      rcases htail with hbefore | rfl | hafter | hvalue
      · simp [i.blank c (mem_append_left _ hbefore)]
      · simp
      · simp [i.blank c (mem_append_right _ hafter)]
      · rcases Initializer.mem_value hvalue with hdigit | rfl
        · simp [hdigit]
        · simp

theorem not_mem_text {d : Char} (hd : isMemberChar d = false) : d ∉ m.text := by
  intro hmem
  rw [isMemberChar_of_mem hmem] at hd
  cases hd

theorem tidy_text (m : Member) : Tidy m.text := by
  have hname : Tidy m.name := ⟨m.isName.1, m.isName.stripped⟩
  rw [text, tail]
  cases m.initializer with
  | none => rwa [Option.elim_none, append_nil]
  | some i =>
    have hvalue : Tidy i.value := ⟨i.value_ne_nil, strip_eq_self_iff.mpr
      ⟨fun c hc => Initializer.isBlank_value (mem_of_mem_head? hc), fun c hc =>
      Initializer.isBlank_value (mem_of_getLast? hc)⟩⟩
    have hall := hname.append (i.before ++ '=' :: i.after) hvalue
    rwa [append_assoc, cons_append] at hall

theorem closed_text (m : Member) : Closed [[',']] [] m.text :=
  .of_plain fun c hc => by
    obtain ⟨hquote, hopening, hclosing, hcomma, -⟩ :=
      isPlain_of_forall (by decide) (fun c => isMemberChar_of_mem) c hc
    exact ⟨hquote, hopening, hclosing, by simpa using hcomma⟩

end Member

/-- The members between the braces of a header. -/
def bodyText (members : List Member) : Text :=
  join ", " (members.map Member.text)

theorem splitTopLevel_bodyText (members : List Member) :
    (splitTopLevel (bodyText members)).map strip = members.map Member.text := by
  cases members with
  | nil => rfl
  | cons m members =>
    rw [bodyText, map_cons, splitTopLevel_join, map_cons, m.tidy_text.2, map_map, map_map]
    · refine congrArg _ (map_congr_left fun m _ => ?_)
      have hparts := @strip_append [] m.text [' '] (by decide) m.tidy_text.2 (forall_mem_nil _)
      rwa [append_nil] at hparts
    · rw [← map_cons]
      intro t ht
      obtain ⟨m, -, rfl⟩ := mem_map.mp ht
      exact ⟨m.closed_text, by rw [m.tidy_text.2]; exact m.tidy_text.1⟩

theorem not_mem_bodyText {d : Char} (hd : isMemberChar d = false) (hcomma : d ≠ ',')
    (members : List Member) : d ∉ bodyText members := by
  intro hmem
  rcases mem_join hmem with hsep | ⟨piece, hpiece, hin⟩
  · rcases mem_cons.mp hsep with rfl | hblank
    · exact hcomma rfl
    · obtain rfl := mem_singleton.mp hblank
      cases hd
  · obtain ⟨m, -, rfl⟩ := mem_map.mp hpiece
    exact Member.not_mem_text hd hin

/-! ## Headers -/

/-- The closing brace of a header. -/
def closing : Pattern :=
  group 4 ("\x7d" ++ blanks ++ maybe ";")

/-- What is remembered of the closing brace. -/
def closed (brace : Text) : List (Nat × Text) :=
  if brace.isEmpty then [] else [(4, brace)]

/-- The text of a header with what stands behind its opening brace. -/
def headerText (name inside : Text) : Text :=
  "enum" ++ (" " ++ (name ++ (" " ++ ("\x7b" ++ inside))))

variable {line code brace inside : Text}

/-- The members on the line of a header are what stands between the blanks inside its braces. -/
theorem completes_inside (hbrace : brace = [] ∨ brace = "\x7d") (hline : '\n' ∉ strip inside)
    (hplain : '}' ∉ strip inside) (groups : List (Nat × Text)) :
    Completes (first blanks (first (group 3 little) (ending closing))) (inside ++ brace) groups
      (closed brace ++ (3, strip inside) :: groups) := by
  have hnone : ∀ (v : Pattern.State) k, v.ahead.head? ≠ some '}' → first closing k v = none := by
    intro v k hv
    rw [closing, first_group, first_append, first_append]
    exact first_symbol_none hv
  have hsolid : ∀ c ∈ brace.head?, isBlank c = false := by rcases hbrace with rfl | rfl <;> decide
  have hend : ∀ {gap : Text} (groups), (∀ c ∈ gap, isBlank c = true) →
      Completes (ending closing) (gap ++ brace) groups (closed brace ++ groups) := by
    intro gap groups hgap
    refine Completes.many ?_ hgap hsolid
    rcases hbrace with rfl | rfl
    · exact (Completes.atEnd groups).maybe_skip fun s hs _ => hnone s _ (by simp [hs])
    · refine Completes.alt_left
        (@Completes.group _ _ [] "\x7d" 4 groups _ (Completes.atEnd _) fun {k s u} hahead hk => ?_)
      rw [first_append, first_append]
      refine first_literal hahead (@first_many _ _ _ _ [] [] rfl (forall_mem_nil _) (by simp) ?_)
      refine first_maybe_skip (first_symbol_none (by simp [State.past])) ?_
      rw [State.past_past]
      exact hk
  -- The blanks inside empty braces are all read before the members.
  obtain ⟨lead, gap, hinside, hlead, hgap, hempty⟩ : ∃ lead gap,
      inside = lead ++ (strip inside ++ gap) ∧
      (∀ c ∈ lead, isBlank c = true) ∧ (∀ c ∈ gap, isBlank c = true) ∧
      (strip inside = [] → gap = []) := by
    by_cases hnil : strip inside = []
    · exact ⟨inside, [], by simp [hnil], strip_eq_nil_iff.mp hnil, forall_mem_nil _, fun _ => rfl⟩
    · obtain ⟨lead, gap, hparts, hlead, hgap⟩ := strip_parts inside
      exact ⟨lead, gap, by rw [← append_assoc]; exact hparts, hlead, hgap, fun heq =>
        absurd heq hnil⟩
  have hbody :=
    (hend ((3, strip inside) :: groups) hgap).group_ending hnone (strip_ends inside).2 hplain
    (q := little) fun hahead hnone hk => first_few hahead
      (fun c hc => decide_eq_true (ne_of_mem_of_not_mem hc hline)) hnone hk
  have hall := hbody.many hlead fun c hc => by
    cases hstrip : strip inside with
    | nil =>
      rw [hstrip, hempty hstrip] at hc
      exact hsolid c hc
    | cons d body =>
      rw [hstrip] at hc
      exact (strip_ends inside).1 c (by rw [hstrip]; exact hc)
  rw [← append_assoc, ← append_assoc, append_assoc lead, ← hinside] at hall
  exact hall

/-- The header of an enumeration with its name and its body. -/
theorem classify_header (hname : IsName name) (hbrace : brace = [] ∨ brace = "\x7d")
    (hinside : strip inside = bodyText members) :
    (classify all (headerText name (inside ++ brace))).kind = .enumHeader ∧
      ∀ k, (classify all (headerText name (inside ++ brace))).group? k =
        (closed brace ++ [(3, bodyText members), (2, name)]).lookup k := by
  have hrest :=
    @completes_inside brace inside hbrace
      (by rw [hinside]; exact not_mem_bodyText rfl (by decide) _)
    (by rw [hinside]; exact not_mem_bodyText rfl (by decide) _) [(2, name)]
  have hblock :=
    @Completes.many _ isBlank " " _ _ _ (hrest.literal (t := "\x7b")) (by decide)
      (by simp [isBlank])
  have hword := hblock.group (p := word) (n := 2) (t := name) fun hahead hk =>
    first_many1 hahead hname.1 hname.2 (by simp; decide) hk
  obtain ⟨u, hu, hgroups⟩ :=
    (@Completes.many1 _ isBlank " " _ _ _ hword (by decide) (by decide)
      hname.head_not_blank).literal
    (t := "enum") (.start (headerText name (inside ++ brace))) rfl rfl
  have hfirst :
      first Grammar.TypeScript.enumHeader some (.start (headerText name (inside ++ brace))) =
      some u := by
    simp only [Grammar.TypeScript.enumHeader, first_append]
    exact first_atStart rfl (first_maybe_skip rfl (first_maybe_skip rfl (first_maybe_skip rfl hu)))
  rw [← hinside, ← hgroups]
  exact @classify_of_preferred ⟨.enumHeader, Grammar.TypeScript.enumHeader⟩
    _ _ _ _ (all.take 5) rfl rfl hfirst

/-! ## Lines -/

/-- The state with lines of an enum written. -/
def State.wrote (s : State) (lines : List Text) : State :=
  { s with output := s.output ++ lines.toArray, hasContent := true }

/-- Neither a comment nor part of a skipped body is at hand. -/
structure State.Reads (s : State) : Prop where
  skipping : s.skipping = 0
  inComment : s.inComment = false

theorem State.wrote_wrote (s : State) (lines later : List Text) :
    (s.wrote lines).wrote later = s.wrote (lines ++ later) := by
  simp [State.wrote, Array.append_assoc]

/-- A line of an enum becomes the code that its member or its header gives. -/
theorem visitLine_eq_wrote {index : Option Int} {d : Char} (hs : s.Reads)
    (hline : strip line = d :: t) (hd : d ≠ '/')
    (hcode : code ≠ [])
    (hstep : (if s.enumIndex.isSome then enumLine { s with hasContent := true } (d :: t)
      else enumHeader { s with hasContent := true } (classify all (d :: t))) =
        .ok ({ s with hasContent := true, enumIndex := index }, code))
    (hkind : s.enumIndex.isSome = false →
    (classify all (d :: t)).kind = .enumHeader) :
    visitLine s line =
    .ok ({ s with enumIndex := index }.wrote [line.takeWhile isBlank ++ code]) := by
  have hwrite : ({ s with hasContent := true, enumIndex := index } : State).write
      (line.takeWhile isBlank) code =
      { s with enumIndex := index }.wrote [line.takeWhile isBlank ++ code] := by
    rw [State.write, if_neg (by simpa using hcode)]
    simp [State.wrote]
  have hslash : ∀ u, startsWith (d :: t) ('/' :: u) = false :=
    fun u => by simp [startsWith, isPrefixOf, hd.symm]
  have hcomment : (s.inComment || startsWith (d :: t) "/*") = false := by
    rw [hs.inComment]; exact hslash ['*']
  have hnote : startsWith (d :: t) "//" = false := hslash ['/']
  rw [visitLine, hline]
  simp only [isEmpty_cons, hcomment, hnote, Bool.false_eq_true, if_false]
  rw [if_neg (not_not.mpr hs.skipping), ← hwrite]
  cases hindex : s.enumIndex.isSome with
  | true =>
    rw [hindex, if_pos rfl] at hstep
    rw [if_pos rfl, hstep]
    rfl
  | false =>
    rw [hindex, if_neg Bool.false_ne_true] at hstep
    rw [if_neg Bool.false_ne_true, hkind hindex]
    simp only [hstep]
    rfl

/-- A line with a member. -/
structure Row where
  line : Text
  member : Member
  comma : Text
  isComma : comma = [] ∨ comma = [',']
  reads : strip line = member.text ++ comma

/-- The line of the object for an entry. -/
def Row.output (r : Row) (entry : Text) : Text :=
  r.line.takeWhile isBlank ++ (entry ++ r.comma)

/-- A row is written with its number, and the next one is counted on. -/
theorem visitLine_row (r : Row) (hs : s.Reads) (hindex : s.enumIndex = some next)
    (hnext : next.natAbs < capacity) : visitLine s r.line =
      .ok ({ s with enumIndex := some (r.member.number next + 1) }.wrote
      [r.output (r.member.entry next)]) := by
  obtain ⟨d, t, hname⟩ := exists_cons_of_ne_nil r.member.isName.1
  have hword : isWord d = true := r.member.isName.2 d (by simp [hname])
  have hother : ∀ x, isWord x = false → d ≠ x := by
    rintro x hx rfl
    rw [hword] at hx
    cases hx
  have htext : r.member.text ++ r.comma = d :: (t ++ r.member.tail ++ r.comma) := by
    rw [Member.text, hname]; rfl
  have hstrip : strip (r.member.text ++ r.comma) = r.member.text ++ r.comma := by
    rw [← r.reads]
    exact strip_eq_self_iff.mpr (strip_ends r.line)
  have hclose : startsWith (r.member.text ++ r.comma) "\x7d" = false := by
    rw [htext]
    have hd := (hother '}' rfl).symm
    simp [startsWith, isPrefixOf, hd]
  have hends : (if Text.endsWith (r.member.text ++ r.comma) "," then r.member.entry next ++ ","
      else r.member.entry next) = r.member.entry next ++ r.comma := by
    rcases r.isComma with hcomma | hcomma
    · have hnot : Text.endsWith (r.member.text ++ []) "," = false := by
        rw [← Bool.not_eq_true, Text.endsWith, isSuffixOf_iff_suffix, append_nil]
        exact fun hsuffix => Member.not_mem_text rfl (hsuffix.subset mem_cons_self)
      rw [hcomma, hnot, if_neg Bool.false_ne_true, append_nil]
    · rw [hcomma]
      exact if_pos (isSuffixOf_iff_suffix.mpr (suffix_append _ _))
  refine visitLine_eq_wrote hs (r.reads.trans htext) (hother '/' rfl) (by simp [Member.entry]) ?_
    (by simp [hindex])
  rw [hindex, ← htext, Option.isSome_some, if_pos rfl]
  simp only [enumLine, hclose, Bool.false_eq_true, if_false,
    enumEntry_member hstrip r.isComma hnext, bind, Except.bind, hends]
  rfl

/-- Member by member, the lines become the lines of the object, and the state keeps the number of
the next one. -/
theorem run_rows {rows : List Row} {out : List Text} (hs : s.Reads)
    (hmany : 2 * rows.length ≤ capacity) (hnext : next.natAbs + rows.length < capacity) :
    (rows.map Row.line).foldlM visitLine ({ s with enumIndex := some next }.wrote out) =
      .ok ({ s with enumIndex := some (numberAfter next (rows.map Row.member)) }.wrote
        (out ++ zipWith Row.output rows (entries next (rows.map Row.member)))) := by
  induction rows generalizing next out with
  | nil =>
    rw [zipWith_nil_left, append_nil]
    rfl
  | cons r rows ih =>
    rw [length_cons] at hmany hnext
    have hreads : ({ s with enumIndex := some next }.wrote out).Reads := ⟨hs.skipping, hs.inComment⟩
    have hvisit := visitLine_row r hreads rfl (by omega)
    have hlater := @ih _ (out ++ [r.output (r.member.entry next)]) (by omega)
      (r.member.natAbs_number_lt (by omega) hnext)
    rw [← State.wrote_wrote] at hlater
    rw [map_cons, foldlM_cons, hvisit]
    refine hlater.trans ?_
    rw [append_assoc]
    rfl

/-- The first line of an object. -/
def constText (name : Text) : Text :=
  "const " ++ name ++ " = \x7b"

/-- An object on one line. -/
def objectText (name : Text) (entries : List Text) : Text :=
  if entries.isEmpty then constText name ++ "\x7d;" else constText name ++ " " ++
    join ", " entries ++ " \x7d;"

theorem stripEnd_constText (name : Text) :
    stripEnd (constText name ++ [' '] ++ []) = constText name := by
  rw [append_nil, stripEnd]
  refine (dropEndWhile_concat _ rfl).trans (dropEndWhile_of_last (x := '{') ?_ rfl)
  exact getLast?_append_of_ne_nil _ (cons_ne_nil ' ' _)

/-- A header opens an object, or it becomes the object of the members on its line. -/
theorem visitLine_header (hs : s.Reads) (hindex : s.enumIndex = none) (hname : IsName name)
    (hmany : 2 * members.length < capacity) (hbrace : brace = [] ∧ members = [] ∨ brace = "\x7d")
    (hinside : strip inside = bodyText members)
    (hline : strip line = headerText name (inside ++ brace)) :
    visitLine s line = .ok ({ s with enumIndex := if brace.isEmpty then some 0 else none }.wrote
      [line.takeWhile isBlank ++ if brace.isEmpty then constText name
      else objectText name (entries 0 members)]) := by
  obtain ⟨hkind, hgroups⟩ := classify_header hname (hbrace.imp_left And.left) hinside
  have hentries :=
    @enumEntries_members members 0 _ (splitTopLevel_bodyText members) (by omega) (by simp; omega)
  generalize hl :
    classify all (headerText name (inside ++ brace)) = l at hkind hgroups
  have hbody : l.group 3 = bodyText members := by
    rw [Classified.group, hgroups]
    rcases hbrace with ⟨rfl, -⟩ | rfl <;> rfl
  have hstart : l.group 1 ++ "const " ++ l.group 2 ++ " = \x7b" = constText name := by
    rw [Classified.group, Classified.group, hgroups, hgroups]
    rcases hbrace with ⟨rfl, -⟩ | rfl <;> rfl
  have hclosed : (l.group? 4).isNone = brace.isEmpty := by
    rw [hgroups]
    rcases hbrace with ⟨rfl, -⟩ | rfl <;> rfl
  have hempty : (join ", " (entries 0 members)).isEmpty = (entries 0 members).isEmpty := by
    cases members with
    | nil => rfl
    | cons m members => simp [entries, join_cons, Member.entry]
  have hcode : ∀ u, constText name ++ u ≠ [] := fun _ => cons_ne_nil 'c' _
  refine visitLine_eq_wrote hs hline (by decide) ?_ ?_ fun _ => (congrArg _ hl).trans hkind
  · rw [objectText]
    split
    · exact cons_ne_nil 'c' _
    · split <;> simp [hcode]
  · have hsome : s.enumIndex.isSome = false := by rw [hindex]; rfl
    rw [hsome, if_neg Bool.false_ne_true]
    refine (congrArg (enumHeader _) hl).trans ?_
    simp only [enumHeader, hbody, hentries, bind, Except.bind, hclosed, hstart, hempty, objectText]
    rcases hbrace with ⟨rfl, rfl⟩ | rfl
    · exact congrArg (fun code => Except.ok (_, code)) (stripEnd_constText name)
    · rfl

theorem visitLine_close {out : List Text} (hs : s.Reads) (hline : strip line = "\x7d") :
    visitLine ({ s with enumIndex := some next }.wrote out) line =
      .ok ({ s with enumIndex := none }.wrote (out ++ [line.takeWhile isBlank ++ "\x7d;"])) := by
  have hreads : ({ s with enumIndex := some next }.wrote out).Reads := ⟨hs.skipping, hs.inComment⟩
  rw [← State.wrote_wrote]
  exact visitLine_eq_wrote hreads hline (by decide) (by decide) rfl (by simp [State.wrote])

/-- The members of an enum are numbered alike on one line and on a line each: as they are given, or
one after the other from zero. Behind the enum the state is as before it, so the lines that follow
are code again. -/
theorem enum_numbered (s : State) (name : Text) (members : List Member) (rows : List Row)
    (line inside header close : Text) (rest : List Text) (hs : s.Reads)
    (hindex : s.enumIndex = none) (hname : IsName name)
    (hmany : 2 * members.length < capacity) (hrows : rows.map Row.member = members)
    (hinside : strip inside = bodyText members)
    (hline : strip line = headerText name (inside ++ "\x7d"))
    (hheader : strip header = headerText name []) (hclose : strip close = "\x7d") :
    (line :: rest).foldlM visitLine s =
        rest.foldlM visitLine
        (s.wrote [line.takeWhile isBlank ++ objectText name (entries 0 members)]) ∧
      (header :: (rows.map Row.line ++ close :: rest)).foldlM visitLine s =
        rest.foldlM visitLine (s.wrote ((header.takeWhile isBlank ++ constText name) ::
          (zipWith Row.output rows (entries 0 members) ++
          [close.takeWhile isBlank ++ "\x7d;"]))) := by
  subst hrows
  rw [length_map] at hmany
  have hstep : ∀ {s u : State} {line : Text}, visitLine s line = .ok u → ∀ rest,
      (line :: rest).foldlM visitLine s = rest.foldlM visitLine u := by
    intro s u line h rest
    rw [foldlM_cons]
    exact bind_of_ok h rfl
  have hnone : ({ s with enumIndex := none } : State) = s := by rw [← hindex]
  constructor
  · have hvisit := visitLine_header hs hindex hname (by rwa [length_map]) (.inr rfl) hinside hline
    refine (hstep hvisit rest).trans ?_
    exact congrArg (fun s : State => foldlM visitLine (s.wrote _) rest) hnone
  · have hopen : visitLine s header =
      .ok ({ s with enumIndex := some 0 }.wrote [header.takeWhile isBlank ++ constText name]) :=
      @visitLine_header [] s name header [] [] hs hindex hname (hmany.trans_le' (Nat.zero_le _))
        (.inl ⟨rfl, rfl⟩) rfl hheader
    have hrun :=
      @run_rows s 0 rows [header.takeWhile isBlank ++ constText name] hs (by omega) (by simp; omega)
    rw [hstep hopen, foldlM_of_ok hrun rfl, hstep (visitLine_close hs hclose), hnone]
    rfl

/-- Members with and without initializers, one of them negative and one with a leading zero. -/
theorem enum_numbered_signed : ∃ members : List Member, 2 * members.length < capacity ∧
    bodyText members = "A, B = -2, C, D=07" ∧
    ["enum E { A, B = -2, C, D=07 }", "f();"].foldlM visitLine State.initial =
      ["f();"].foldlM visitLine (State.initial.wrote ["const E = { A: 0, B: -2, C: -1, D: 07 };"]) ∧
    ["enum E \x7b", "  A,", "  B = -2,", "  C,", "  D=07", "\x7d",
        "f();"].foldlM visitLine State.initial =
      ["f();"].foldlM visitLine (State.initial.wrote ["const E = \x7b", "  A: 0,", "  B: -2,",
        "  C: -1,", "  D: 07", "\x7d;"]) := by
  let second : Initializer := ⟨" ", " ", true, "2", by decide, by decide, by decide, by decide⟩
  let fourth : Initializer := ⟨"", "", false, "07", by decide, by decide, by decide, by decide⟩
  let rows : List Row := [⟨"  A,", ⟨"A", none, by decide⟩, ",", .inr rfl, by decide⟩,
    ⟨"  B = -2,", ⟨"B", some second, by decide⟩, ",", .inr rfl, by decide⟩,
    ⟨"  C,", ⟨"C", none, by decide⟩, ",", .inr rfl, by decide⟩,
    ⟨"  D=07", ⟨"D", some fourth, by decide⟩, "", .inl rfl, by decide⟩]
  have hmany : 2 * (rows.map Row.member).length < capacity :=
    Nat.lt_of_lt_of_le (by decide) ten_le_capacity
  have hnumbered :=
    enum_numbered State.initial "E" (rows.map Row.member) rows "enum E { A, B = -2, C, D=07 }"
    " A, B = -2, C, D=07 " "enum E \x7b" "\x7d" ["f();".toList] ⟨rfl, rfl⟩ rfl (by decide) hmany rfl
    rfl rfl rfl rfl
  have hentries : entries 0 (rows.map Row.member) = ["A: 0", "B: -2", "C: -1", "D: 07"] := by
    decide +kernel
  rw [hentries] at hnumbered
  exact ⟨rows.map Row.member, hmany, by decide, hnumbered⟩

/-- An enum whose name has a dollar sign is no enum to the form of its header: both layouts are kept
as they are, and no member is numbered. -/
theorem enum_dollar_kept :
    machine.convert "enum $E { A, B }" = .ok "enum $E { A, B }" ∧
      machine.convert "enum $E \x7b\n  A,\n  B\n\x7d" = .ok "enum $E \x7b\n  A,\n  B\n\x7d" := by
  constructor <;> decide +kernel

end Erasure

end CodeConverter
