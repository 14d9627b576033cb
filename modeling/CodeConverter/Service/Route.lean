import CodeConverter.Json.Encoding
import CodeConverter.Service.Address
import CodeConverter.Service.Server
import CodeConverter.Text.Blank
import CodeConverter.Text.Upper

/-!
# The standard server

The server that the service runs with. A request is routed by the path of its address and by its
method. A path that would be routed if its runs of slashes were single slashes is redirected.
-/

namespace CodeConverter.Service

open Text

/-- The places that a path can lead to. -/
inductive Route where
  | convert
  | conversions
  | conversion (digits : Text)
  | languages
  | features
  /-- A file that pages would be built from; there are none. -/
  | asset
  deriving DecidableEq

namespace Route

/-- The place that a path leads to. -/
def ofPath? (path : Text) : Option Route :=
  if path = "/api/convert".toList then some .convert
  else if path = "/api/conversions".toList then some .conversions
  else if path = "/api/languages".toList then some .languages
  else if path = "/supported-features".toList then some .features
  else
    match dropPrefix? "/api/conversions/" path with
    | some digits =>
        if !digits.isEmpty && digits.all isDigit then some (.conversion digits) else none
    | none =>
      match dropPrefix? "/static/" path with
      | some [] => none
      | some (c :: rest) => if c = '/' || rest.contains '\n' then none else some .asset
      | none => none

/-- The endpoint of a route. A number with too many digits is not read. -/
def endpoint? : Route → Option Endpoint
  | .convert => some .convert
  | .conversions => some (.page .conversions)
  | .conversion digits =>
    if digitLimit < digits.length then none else some (.page (.conversion (natOfDigits digits)))
  | .languages => some (.page .languages)
  | .features => some (.page .features)
  | .asset => none

/-- The methods that a route takes. -/
def methods : Route → List Text
  | .convert => ["POST", "OPTIONS"]
  | _ => ["GET", "HEAD", "OPTIONS"]

end Route

/-- The path with single slashes for runs of slashes. -/
def mergeSlashes : Text → Text
  | '/' :: '/' :: rest => mergeSlashes ('/' :: rest)
  | c :: rest => c :: mergeSlashes rest
  | [] => []

/-- The schemes of lasting connections. -/
def connectionSchemes : List Text := ["ws", "wss"]

/-- Where a request leads. -/
inductive Destination where
  | route (r : Route)
  | redirect
  | wrongScheme
  | wrongMethod
  | nowhere
  deriving DecidableEq

/-- Where a method and an address lead. -/
def destination (method : Text) (address : Address) : Destination :=
  let path := address.routedPath
  let reached (r : Route) (there : Destination) : Destination :=
    if !r.methods.contains method then .wrongMethod
    else if connectionSchemes.contains address.scheme then .wrongScheme
    else there
  match Route.ofPath? path, Route.ofPath? (mergeSlashes path) with
  | some r, _ => reached r (.route r)
  | none, some r => reached r .redirect
  | none, none => .nowhere

/-- The endpoint at a destination, or the status of the answer that the server gives by itself. -/
def Destination.endpoint (method : Text) : Destination → Except Nat Endpoint
  | .nowhere => .error 404
  | .wrongMethod => .error 405
  | .redirect => .error 308
  | .wrongScheme => .error 400
  | .route r =>
    match r.endpoint? with
    | none => .error (if method = "OPTIONS".toList && r = .asset then 200 else 404)
    | some endpoint => if method = "OPTIONS".toList then .error 200 else .ok endpoint

/-- Whether a content type is one of JSON. -/
def announcesJson (contentType : Text) : Bool :=
  let type := (strip (contentType.takeWhile (· ≠ ';'))).map Char.toLower
  type = "application/json".toList || (startsWith type "application/" && endsWith type "+json")

/-- The JSON value of a payload. -/
def Payload.value? : Payload → Option Json
  | .nothing => none
  | .json value => some value
  | .raw contentType content =>
    if announcesJson contentType then (Json.decode? content).bind Json.parse? else none

/-- The origin that an answer allows. An origin is allowed whatever the case of its letters; an
empty one is told the least of the allowed origins. -/
def allowedOrigin (allowed : List Text) (origin : Text) : Option Text :=
  if origin.isEmpty then
    (allowed.mergeSort fun a b => (String.ofList a ≤ String.ofList b : Bool)).head?
  else if allowed.any fun a => fold a = fold origin then some origin
  else none

/-- The answer to a request with a status and a body or none. -/
def Request.answered (origins : List Text) (r : Request) (status : Nat) (body : Option Json) :
    Response :=
  ⟨status, body, r.origin.bind (allowedOrigin origins)⟩

/-- The server that the service runs with, which allows some origins. -/
def Server.standard (origins : List Text) : Server where
  dispatch r :=
    match (destination r.verb (Address.read r.address)).endpoint r.verb with
    | .ok endpoint => .ok endpoint
    | .error status => .error (r.answered origins status none)
  value? r := .ok r.payload.value?
  respond r status body :=
    r.answered origins status (if r.verb = "HEAD".toList then none else some body)

end CodeConverter.Service
