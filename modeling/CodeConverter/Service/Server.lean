import CodeConverter.Json.Value

/-!
# The server

Requests reach the service through a web server, which is a parameter: it finds the endpoint that a
request is for, reads what is sent along and sends the answer.
-/

namespace CodeConverter.Service

/-- What is sent along with a request. -/
inductive Payload where
  | nothing
  | json (value : Json)
  | raw (contentType : Text) (content : Text)

/-- A request. -/
structure Request where
  method : Text
  address : Text
  payload : Payload
  origin : Option Text

/-- The method of a request in capital letters. -/
def Request.verb (r : Request) : Text :=
  r.method.map Char.toUpper

/-- An answer. Answers without a JSON body have none here. -/
structure Response where
  status : Nat
  body : Option Json
  allowOrigin : Option Text

/-- What the service shows. -/
inductive Page where
  | conversions
  | conversion (id : Nat)
  | languages
  | features
  deriving DecidableEq

/-- What a request can ask of the service. -/
inductive Endpoint where
  | convert
  | page (page : Page)
  deriving DecidableEq

/-- What the service uses of a web server. -/
structure Server where
  /-- The endpoint that a request is for, or the answer that the server gives by itself. -/
  dispatch : Request → Except Response Endpoint
  /-- The JSON value that is sent along, if there is one that can be read, or the answer of the
  server where reading breaks off. -/
  value? : Request → Except Response (Option Json)
  /-- The answer with the status and the body that an endpoint gives. -/
  respond : Request → Nat → Json → Response

end CodeConverter.Service
