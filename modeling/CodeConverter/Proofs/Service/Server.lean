import CodeConverter.Service.Route
import Mathlib.Data.List.TakeWhile

/-!
# What is asked of a server

The service works behind every server that keeps the rules of `Server.Lawful`: requests for the
paths of the service reach their endpoints, and answers keep their status and their body. The
standard server is one, since a path of letters, digits, slashes and dashes that starts with one
slash is routed by itself: it has no scheme, host, query or fragment, and nothing in it is decoded.
-/

namespace CodeConverter

open List

namespace Text

theorem firstChar?_utf8EncodeChar (c : Char) (bytes : List UInt8) :
    firstChar? (String.utf8EncodeChar c ++ bytes) = some c := by
  have hlength : (String.utf8EncodeChar c).length ≤ 4 := by
    rw [String.length_utf8EncodeChar]
    exact Char.utf8Size_le_four c
  have hbytes : (⟨((String.utf8EncodeChar c ++ bytes).take 4).toArray⟩ : ByteArray) =
      (String.utf8EncodeChar c).toByteArray ++
        (bytes.take (4 - (String.utf8EncodeChar c).length)).toByteArray := by
    rw [take_append, take_of_length_le hlength]
    ext1
    simp
  rw [firstChar?, hbytes]
  exact ByteArray.utf8DecodeChar?_utf8EncodeChar_append

theorem ofUtf8From_append (read bytes : List UInt8) :
    ofUtf8From read.length (read ++ bytes) = ofUtf8From 0 bytes := by
  induction read with
  | nil => rfl
  | cons byte read ih => exact ih

/-- Decoding undoes encoding. -/
theorem ofUtf8_utf8 (t : Text) : ofUtf8 (utf8 t) = t := by
  induction t with
  | nil => rfl
  | cons c t ih =>
    have hfirst := firstChar?_utf8EncodeChar c (utf8 t)
    have hlength := String.length_utf8EncodeChar c
    obtain ⟨byte, rest, hcons⟩ := exists_cons_of_ne_nil (l := String.utf8EncodeChar c) (by
      intro hnil
      rw [hnil, length_nil] at hlength
      exact absurd hlength (Nat.ne_of_lt c.utf8Size_pos))
    have hutf8 : utf8 (c :: t) = byte :: (rest ++ utf8 t) := by
      rw [utf8, flatMap_cons, hcons]
      rfl
    rw [hcons, cons_append] at hfirst
    have hrest : c.utf8Size - 1 = rest.length := by
      rw [← hlength, hcons, length_cons, Nat.add_sub_cancel]
    rw [ofUtf8, hutf8, ofUtf8From, hfirst]
    show c :: ofUtf8From (c.utf8Size - 1) (rest ++ utf8 t) = c :: t
    rw [hrest, ofUtf8From_append]
    exact congrArg _ ih

end Text

namespace Service.Address

open Text

/-- A character that stands for itself wherever it stands in an address after the first slash. -/
def isPlain (c : Char) : Bool :=
  c.isAlphanum || c = '/' || c = '-'

variable {c : Char} {t : Text}

theorem ne_of_isPlain {d : Char} (h : isPlain c = true) (hd : isPlain d = false) : c ≠ d := by
  intro heq
  rw [heq, hd] at h
  cases h

theorem pathBytes_of_isPlain (h : ∀ c ∈ t, isPlain c = true) : pathBytes t = utf8 t := by
  induction t with
  | nil => rfl
  | cons c t ih =>
    rw [forall_mem_cons] at h
    rw [pathBytes, ih h.2]
    · rw [utf8, utf8, utf8, flatMap_cons, flatMap_cons, flatMap_nil, append_nil]
    · intro a b rest hpercent
      exact absurd hpercent (ne_of_isPlain h.1 rfl)

/-- A plain path that starts with one slash is read as a path. -/
theorem read_of_isPlain (hc : c ≠ '/') (h : ∀ d ∈ c :: t, isPlain d = true) :
    read ('/' :: c :: t) = ⟨[], '/' :: c :: t, []⟩ := by
  have hall : ∀ d ∈ '/' :: c :: t, isPlain d = true := forall_mem_cons.mpr ⟨rfl, h⟩
  have hfiller : ('/' :: c :: t).dropWhile isFiller = '/' :: c :: t := rfl
  have hbreak : ('/' :: c :: t).filter (fun d => !isBreak d) = '/' :: c :: t := by
    rw [filter_eq_self]
    intro d hd
    have hne : ∀ e, isPlain e = false → d ≠ e := fun e he => ne_of_isPlain (hall d hd) he
    simp [isBreak, hne '\t' rfl, hne '\r' rfl, hne '\n' rfl]
  have hscheme : cutScheme ('/' :: c :: t) = ([], '/' :: c :: t) := by
    rw [cutScheme, if_neg]
    simp [isScheme]
  have hhost : dropHost ('/' :: c :: t) = '/' :: c :: t := by
    rw [dropHost]
    intro rest heq
    exact hc (cons.inj (cons.inj heq).2).1
  have htake : ∀ e, isPlain e = false → ('/' :: c :: t).takeWhile (· ≠ e) = '/' :: c :: t := by
    intro e he
    rw [takeWhile_eq_self_iff]
    intro d hd
    simpa using ne_of_isPlain (hall d hd) he
  have hdrop : ('/' :: c :: t).dropWhile (· ≠ '?') = [] := by
    rw [dropWhile_eq_nil_iff]
    intro d hd
    simpa using ne_of_isPlain (hall d hd) rfl
  rw [read, hfiller, hbreak, hscheme]
  show (⟨[], ((dropHost ('/' :: c :: t)).takeWhile (· ≠ '#')).takeWhile (· ≠ '?'),
    (((dropHost ('/' :: c :: t)).takeWhile (· ≠ '#')).dropWhile (· ≠ '?')).drop 1⟩ : Address) = _
  rw [hhost, htake '#' rfl, htake '?' rfl, hdrop]
  rfl

theorem routedPath_of_isPlain (hc : c ≠ '/') (h : ∀ d ∈ c :: t, isPlain d = true) :
    (read ('/' :: c :: t)).routedPath = '/' :: c :: t := by
  have hall : ∀ d ∈ '/' :: c :: t, isPlain d = true := forall_mem_cons.mpr ⟨rfl, h⟩
  have hread := read_of_isPlain hc h
  rw [routedPath, hread]
  show '/' :: (ofUtf8 (pathBytes ((read ('/' :: c :: t)).path.dropWhile isFiller))).dropWhile
      (· = '/') = _
  rw [hread]
  show '/' :: (ofUtf8 (pathBytes ('/' :: c :: t))).dropWhile (· = '/') = _
  rw [pathBytes_of_isPlain hall, ofUtf8_utf8]
  simp [hc]

end Service.Address

namespace Service

open Text

/-- A request asks for a path with a method. -/
def Asks (method path : Text) (r : Request) : Prop :=
  r.method = method ∧ r.address = path

/-- The path of a record. -/
def recordPath (number : Text) : Text :=
  "/api/conversions/" ++ number

/-- A number in decimal digits. -/
def IsNumeral (t : Text) : Prop :=
  t ≠ [] ∧ ∀ c ∈ t, c.isDigit = true

/-- The rules of a server. -/
structure Server.Lawful (server : Server) : Prop where
  /-- Code is posted to be converted. -/
  convert : ∀ {r}, Asks "POST" "/api/convert" r → server.dispatch r = .ok .convert
  /-- The list of the records has a path. -/
  conversions : ∀ {r}, Asks "GET" "/api/conversions" r →
    server.dispatch r = .ok (.page .conversions)
  /-- Every record has a path with its number. -/
  conversion : ∀ {digits r}, IsNumeral digits → digits.length ≤ digitLimit →
    Asks "GET" (recordPath digits) r →
      server.dispatch r = .ok (.page (.conversion (natOfDigits digits)))
  /-- A number with too many digits is not found. -/
  oversized : ∀ {digits r}, IsNumeral digits → digitLimit < digits.length →
    Asks "GET" (recordPath digits) r → ∃ a, server.dispatch r = .error a ∧ a.status = 404
  /-- A number with a minus sign is not found. -/
  negative : ∀ {digits r}, IsNumeral digits → Asks "GET" (recordPath ('-' :: digits)) r →
    ∃ a, server.dispatch r = .error a ∧ a.status = 404
  /-- Nothing but what is posted is converted. -/
  posted : ∀ {r}, server.dispatch r = .ok .convert → r.verb = "POST".toList
  /-- Where reading breaks off, the server has failed. -/
  broken : ∀ {r a}, server.value? r = .error a → a.status = 500
  /-- An answer keeps its status. -/
  status : ∀ r status body, (server.respond r status body).status = status
  /-- An answer keeps its body, unless only its head is asked for. -/
  body : ∀ {r}, r.verb ≠ "HEAD".toList → ∀ status body,
    (server.respond r status body).body = some body

/-! ## The standard server -/

section

variable {method : Text} {c : Char} {t digits : Text} {route : Route} {r : Request}

theorem destination_of_route (hc : c ≠ '/') (hplain : ∀ d ∈ c :: t, Address.isPlain d = true)
    (hroute : Route.ofPath? ('/' :: c :: t) = some route) (hmethod : method ∈ route.methods) :
    destination method (.read ('/' :: c :: t)) = .route route := by
  unfold destination
  simp only [Address.routedPath_of_isPlain hc hplain, hroute, contains_iff_mem.mpr hmethod]
  rw [Address.read_of_isPlain hc hplain]
  rfl

theorem destination_of_none (hc : c ≠ '/') (hplain : ∀ d ∈ c :: t, Address.isPlain d = true)
    (hroute : Route.ofPath? ('/' :: c :: t) = none)
    (hmerged : mergeSlashes ('/' :: c :: t) = '/' :: c :: t) :
    destination method (.read ('/' :: c :: t)) = .nowhere := by
  unfold destination
  simp only [Address.routedPath_of_isPlain hc hplain, hmerged, hroute]

theorem method_of_destination {a : Address} (h : destination method a = .route route) :
    method ∈ route.methods := by
  unfold destination at h
  dsimp only at h
  split at h
  · split at h
    · cases h
    · rename_i hmethod
      split at h
      · cases h
      · cases h
        simpa using hmethod
  · split at h
    · cases h
    · split at h <;> cases h
  · cases h

theorem isPlain_recordPath {number : Text} (h : ∀ c ∈ number, Address.isPlain c = true) :
    ∀ c ∈ "api/conversions/" ++ number, Address.isPlain c = true :=
  forall_mem_append.mpr ⟨by decide, h⟩

theorem isPlain_of_isDigit (h : c.isDigit = true) : Address.isPlain c = true := by
  simp [Address.isPlain, Char.isAlphanum, h]

theorem ofPath?_recordPath (number : Text) : Route.ofPath? (recordPath number) =
    if !number.isEmpty && number.all isDigit then some (.conversion number) else none := by
  have hdrop : dropPrefix? "/api/conversions/" ("/api/conversions/" ++ number) = some number := rfl
  unfold recordPath Route.ofPath?
  rw [if_neg (by simp), if_neg (by simp), if_neg (by simp), if_neg (by simp), hdrop]

theorem mergeSlashes_of_not_mem (h : '/' ∉ t) : mergeSlashes t = t := by
  induction t with
  | nil => rw [mergeSlashes]
  | cons c t ih =>
    obtain ⟨hc, ht⟩ := not_or.mp (mt mem_cons.mpr h)
    rw [mergeSlashes, ih ht]
    intro rest hslash
    exact absurd hslash.symm hc

variable {path : Text} (origins : List Text) (place : Destination)

theorem dispatch_eq_ok {endpoint : Endpoint} (hverb : r.verb = method)
    (hplace : destination method (.read r.address) = place)
    (h : place.endpoint method = .ok endpoint) :
    (Server.standard origins).dispatch r = .ok endpoint := by
  simp only [Server.standard, hverb, hplace, h]

theorem dispatch_eq_error {status : Nat} (hverb : r.verb = method)
    (hplace : destination method (.read r.address) = place)
    (h : place.endpoint method = .error status) :
    ∃ a, (Server.standard origins).dispatch r = .error a ∧ a.status = status := by
  simp only [Server.standard, hverb, hplace, h]
  exact ⟨_, rfl, rfl⟩

theorem verb_of_asks (hasks : Asks method path r) (hmethod : method.map Char.toUpper = method) :
    r.verb = method := by
  rw [Request.verb, hasks.1, hmethod]

theorem destination_numeral (hdigits : IsNumeral digits)
    (hasks : Asks "GET" (recordPath digits) r) :
    destination "GET" (.read r.address) = .route (.conversion digits) := by
  have hroute : Route.ofPath? (recordPath digits) = some (.conversion digits) := by
    have hall : digits.all isDigit = true :=
      all_eq_true.mpr fun c hc => isDigit_of_isDigit (hdigits.2 c hc)
    rw [ofPath?_recordPath, hall, isEmpty_eq_false_iff.mpr hdigits.1]
    rfl
  have hplain := isPlain_recordPath fun c hc => isPlain_of_isDigit (hdigits.2 c hc)
  rw [hasks.2]
  exact destination_of_route (by decide) hplain hroute mem_cons_self

theorem mergeSlashes_negative (h : '/' ∉ digits) :
    mergeSlashes (recordPath ('-' :: digits)) = recordPath ('-' :: digits) := by
  unfold recordPath
  simp [mergeSlashes, mergeSlashes_of_not_mem h]

theorem of_endpoint_convert (h : (Destination.route route).endpoint method = .ok .convert) :
    route = .convert ∧ method ≠ "OPTIONS".toList := by
  cases route with
  | convert =>
    refine ⟨rfl, fun hoptions => ?_⟩
    rw [hoptions] at h
    cases h
  | asset => cases h
  | conversion digits =>
    simp only [Destination.endpoint, Route.endpoint?] at h
    repeat' split at h
    all_goals simp_all
  | _ =>
    simp only [Destination.endpoint, Route.endpoint?] at h
    split at h <;> cases h

theorem method_of_dispatch (h : (Server.standard origins).dispatch r = .ok .convert) :
    r.verb = "POST".toList := by
  simp only [Server.standard] at h
  split at h
  · rename_i endpoint hendpoint
    obtain rfl : endpoint = .convert := Except.ok.inj h
    cases hplace : destination r.verb (.read r.address) with
    | route route =>
      have hmethod := method_of_destination hplace
      rw [hplace] at hendpoint
      obtain ⟨rfl, hother⟩ := of_endpoint_convert hendpoint
      exact (mem_cons.mp hmethod).resolve_right fun hmem => hother (mem_singleton.mp hmem)
    | _ =>
      rw [hplace] at hendpoint
      cases hendpoint
  · cases h

/-- The standard server keeps the rules. -/
theorem lawful_server : (Server.standard origins).Lawful where
  convert hasks := by
    refine dispatch_eq_ok origins (.route .convert) (verb_of_asks hasks rfl) ?_ rfl
    rw [hasks.2]
    exact destination_of_route (by decide) (by decide) rfl (by decide)
  conversions hasks := by
    refine dispatch_eq_ok origins (.route .conversions) (verb_of_asks hasks rfl) ?_ rfl
    rw [hasks.2]
    exact destination_of_route (by decide) (by decide) rfl (by decide)
  conversion hdigits hsize hasks := by
    refine dispatch_eq_ok origins _ (verb_of_asks hasks rfl) (destination_numeral hdigits hasks) ?_
    simp [Destination.endpoint, Route.endpoint?, Nat.not_lt.mpr hsize]
  oversized hdigits hsize hasks := by
    refine dispatch_eq_error origins _ (verb_of_asks hasks rfl)
      (destination_numeral hdigits hasks) ?_
    simp [Destination.endpoint, Route.endpoint?, hsize]
  negative := by
    intro digits r hdigits hasks
    refine dispatch_eq_error origins .nowhere (verb_of_asks hasks rfl) ?_ rfl
    have hslash : '/' ∉ digits := fun hmem => by cases hdigits.2 '/' hmem
    rw [hasks.2]
    refine destination_of_none (by decide) (isPlain_recordPath ?_) (ofPath?_recordPath _) ?_
    · exact forall_mem_cons.mpr ⟨by decide, fun c hc => isPlain_of_isDigit (hdigits.2 c hc)⟩
    · exact mergeSlashes_negative hslash
  posted := method_of_dispatch origins
  broken h := by cases h
  status _ _ _ := rfl
  body h _ _ := if_neg h

end

end Service

end CodeConverter
