import TransparencyLog.Auth
import TransparencyLog.Http.Url
import TransparencyLog.Wire.Answer

/-!
# Logs asked over HTTP

A remote log is known by the URL in front of its paths. Every call is one request; a submission
carries a signature if the secret is known. What comes back is either the answer's message, or a
status and a reason.

* `RemoteLog`, `RemoteLog.ofUrl`;
* `RemoteLog.url?`, `RemoteLog.request`, `RemoteLog.outgoing?`: what is sent for a call, and where;
* `LogCall.readResponse`: what a response means;
* `RemoteLog.ask`: a whole call.
-/

namespace TransparencyLog

/-- A remote log: the URL in front of its paths, and the secret for submissions if it is known. -/
structure RemoteLog where
  baseUrl : String
  secret : Option String := none
deriving DecidableEq, Repr

/-! ## Requests -/

/-- The path that answers a call. -/
def LogCall.path {α : Type} : LogCall α → String
  | .head => "/sth"
  | .consistency _ _ => "/log/consistency"
  | .audit _ _ => "/log/audit"
  | .entries _ _ => "/log/entries"
  | .mapValue _ _ => "/map/value"
  | .submit _ => "/submit"

/-- The named values of a call. -/
def LogCall.form {α : Type} : LogCall α → Form
  | .head => []
  | .consistency first second =>
    [("first", toString first.toNat), ("second", toString second.toNat)]
  | .audit index size => [("index", toString index.toNat), ("tree_size", toString size.toNat)]
  | .entries start finish => [("start", toString start.toNat), ("finish", toString finish.toNat)]
  | .mapValue key root => [("key", Hex.encode key), ("map_root", root.text)]
  | .submit _ => []

namespace RemoteLog

/-- A text without the slashes at its end. -/
def withoutSlashes (url : String) : String :=
  String.ofList ((url.toList.reverse.dropWhile (· == '/')).reverse)

def ofUrl (url : String) (secret : Option String) : RemoteLog :=
  ⟨withoutSlashes url, secret⟩

def url? {α : Type} (log : RemoteLog) (call : LogCall α) : Option Http.Url :=
  (Http.Url.parse? (log.baseUrl ++ call.path)).map fun url => url.withForm call.form

/-- The headers of a submission made at some time. -/
def submitHeaders (log : RemoteLog) (now : Int64) (body : Bytes) : List (String × String) :=
  ("Content-Type", "application/json") :: match log.secret with
    | none => []
    | some secret => [(Auth.timestampHeader, toString now.toInt),
        (Auth.signatureHeader, Auth.sign secret now body)]

/-- The request of a call made at some time. -/
def request {α : Type} (log : RemoteLog) (now : Int64) (call : LogCall α)
    (target : Http.Target) : Http.Request :=
  match call with
  | .submit items =>
    let body := Wire.bytesOfData (Wire.SubmitForm.ofRecords items).toData
    { method := .post, target, headers := log.submitHeaders now body, body }
  | _ => { method := .get, target }

/-- The request of a call with the URL it goes to. -/
def outgoing? {α : Type} (log : RemoteLog) (now : Int64) (call : LogCall α) :
    Option (Http.Url × Http.Request) :=
  (log.url? call).map fun url => (url, log.request now call url.target)

end RemoteLog

/-! ## Responses -/

/-- Why a remote log gave no response. -/
def ApiError.ofHttp : Http.Fault → ApiError
  | .unreachable => .transport "the log cannot be reached"
  | .timeout => .timeout

/-- Why a message is no answer. -/
def ApiError.ofWire : Wire.Fault → ApiError
  | .form => .transport "the response is not of the expected form"
  | fault => .malformedResponse fault.message

/-- What a response to a call means. -/
def LogCall.readResponse {α : Type} (call : LogCall α) (response : Http.Response) :
    Except ApiError α :=
  if response.isSuccess then (call.read response.body).mapError ApiError.ofWire
  else .error (.remote response.status (Wire.errorText response.body))

/-- Makes a call at some time. -/
def RemoteLog.ask {α : Type} (exchange : Http.Exchange) (now : Int64) (log : RemoteLog)
    (call : LogCall α) : Except ApiError α :=
  match log.outgoing? now call with
  | none => .error (ApiError.ofHttp .unreachable)
  | some (url, request) =>
    match exchange url request with
    | .error fault => .error (ApiError.ofHttp fault)
    | .ok response => call.readResponse response

end TransparencyLog
