import TransparencyLog.Daemon.Basic
import TransparencyLog.Daemon.Route
import TransparencyLog.Quorum.Report

/-!
# Serving requests

A daemon turns a request into a response and, if it was a submission that succeeded, into a daemon
whose log has grown. A submission is looked at in order: whether any are taken, who sends it, what
it says, and whether the log takes it.

* `ServiceError`, with its status and body;
* `Daemon.answer`: the questions;
* `Daemon.submit`: submissions;
* `Daemon.handle`: all requests.
-/

namespace TransparencyLog

/-! ## Failures -/

/-- The status for what a log refuses. -/
def LogError.status : LogError → Nat
  | .outOfRange _ | .malformedRecord _ | .recordTooLarge _ | .invalidProof => 400
  | .duplicateKey _ => 409
  | .cannotSign => 403
  | .notFound _ _ => 404
  | .storage _ => 503
  | .badSignature | .key _ | .serialization => 500

/-- The status for a log that could not be asked; a status that is none becomes that of a bad
gateway. -/
def ApiError.status : ApiError → Nat
  | .log error => error.status
  | .remote status _ => if 100 ≤ status ∧ status < 1000 then status else 502
  | .transport _ | .malformedResponse _ | .timeout => 503
  | .task => 500

/-- Why a request is not granted. -/
inductive ServiceError
  | unreadable
  | tooLarge
  | field (fault : Wire.Fault)
  | notServed
  | submitDisabled
  | unauthorised (fault : Auth.Fault)
  | api (error : ApiError)
  | noDecision (failure : Quorum.NoDecision)

namespace ServiceError

def status : ServiceError → Nat
  | .unreadable | .field _ => 400
  | .tooLarge => 413
  | .notServed => 404
  | .submitDisabled | .unauthorised _ => 403
  | .api error => error.status
  | .noDecision _ => 422

/-- What a failure says. A form or a path that cannot be read and a body that is too long are refused by
the HTTP library before the daemon sees them. It words these refusals itself, as it does those of paths and
methods that lead nowhere; its words are left out, and such a body is empty here. -/
def body : ServiceError → Bytes
  | .unreadable | .tooLarge => []
  | .field fault => say fault.message
  | .notServed => say "no local log is served here"
  | .submitDisabled => say "submit is disabled"
  | .unauthorised fault => say fault.message
  | .api error => say error.message
  | .noDecision failure => Wire.bytesOfData failure.toData
where
  /-- A reason as a message. -/
  say (text : String) : Bytes := Wire.bytesOfData (Wire.errorToData text)

end ServiceError

/-- The response for what came of a request. -/
def Http.Response.ofOutcome : Except ServiceError Bytes → Http.Response
  | .ok body => ⟨200, body⟩
  | .error e => ⟨e.status, e.body⟩

namespace Daemon

/-! ## Questions -/

/-- What a request has to hold. -/
def need {α : Type} : Option α → Except ServiceError α
  | some a => .ok a
  | none => .error .unreadable

/-- The answer of the log served here, as a message. -/
def answerCall {α : Type} (daemon : Daemon) (call : LogCall α) : Except ServiceError Bytes :=
  match daemon.served with
  | none => .error .notServed
  | some log =>
    match log.read call with
    | .ok a => .ok (call.write a)
    | .error e => .error (.api e)

/-- The key and the root in a form. -/
def readMapKey (form : Form) : Except ServiceError (Bytes × Digest) := do
  let key ← need (form.text? "key")
  let root ← need (form.text? "map_root")
  let key ← (Wire.bytesOf "key" key).mapError .field
  let root ← (Wire.digestOf "map_root" root).mapError .field
  return (key, root)

/-- The answer to a question, as a message. -/
def answer (daemon : Daemon) (around : Surroundings) (form : Form) :
    Question → Except ServiceError Bytes
  | .head => daemon.answerCall .head
  | .consistency => do
    let first ← need (form.number? "first")
    let second ← need (form.number? "second")
    daemon.answerCall (.consistency first second)
  | .audit => do
    let index ← need (form.number? "index")
    let size ← need (form.number? "tree_size")
    daemon.answerCall (.audit index size)
  | .entries => do
    let start ← need (form.number? "start")
    let finish ← need (form.number? "finish")
    daemon.answerCall (.entries start finish)
  | .mapValue => do
    let (key, root) ← readMapKey form
    daemon.answerCall (.mapValue key root)
  | .decision segment => do
    let key ← need (Route.readSegment? segment)
    match (daemon.survey around (Bytes.ofText key)).decide daemon.strategy with
    | .ok correlation => .ok (Wire.bytesOfData correlation.toData)
    | .error failure => .error (.noDecision failure)
  | .hashes segment => do
    let key ← need (Route.readSegment? segment)
    let hashes := (daemon.survey around (Bytes.ofText key)).hashes
    return Wire.bytesOfData (.object (hashes.map fun (name, hash) => (name, .text hash)))

/-! ## Submissions -/

/-- The longest body that is read. -/
def maxBody : Nat := 2097152

/-- The batch of a submission, once it is known who sends it. -/
def readSubmission (daemon : Daemon) (now : Int64) (request : Http.Request) :
    Except ServiceError (List Record) := do
  if maxBody < request.body.length then throw .tooLarge
  match daemon.secret with
  | none => throw .submitDisabled
  | some secret =>
    (Auth.verify secret (request.header? Auth.timestampHeader)
      (request.header? Auth.signatureHeader) request.body now).mapError .unauthorised
    (Wire.readBatch request.body).mapError .field

/-- Takes a submission: the new head as a message, and the daemon with the grown log. -/
def submit (daemon : Daemon) (now : Int64) (request : Http.Request) :
    Except ServiceError Bytes × Daemon :=
  match daemon.readSubmission now request with
  | .error e => (.error e, daemon)
  | .ok items =>
    match daemon.served with
    | none => (.error .notServed, daemon)
    | some log =>
      let (outcome, log) := log.answer (.submit items)
      let daemon := { daemon with served := some log }
      match outcome with
      | .ok head => (.ok ((LogCall.submit items).write head), daemon)
      | .error e => (.error (.api (.log e)), daemon)

/-! ## Requests -/

/-- Handles a request. A request for the options of a path is granted whatever the path; one for
the head of a response gets it without its body. A path or a method that leads nowhere is refused by the HTTP
library, whose words are left out as in `ServiceError.body`. -/
def handle (daemon : Daemon) (around : Surroundings) (request : Http.Request) :
    Http.Response × Daemon :=
  if request.method = .options then (⟨200, []⟩, daemon)
  else match Route.ofPath? request.target.path, request.method with
    | none, _ => (⟨404, []⟩, daemon)
    | some (.ask question), .get =>
      (.ofOutcome (daemon.answer around request.target.form question), daemon)
    | some (.ask question), .head =>
      ({ Http.Response.ofOutcome (daemon.answer around request.target.form question) with
          body := [] }, daemon)
    | some .submit, .post =>
      let (outcome, daemon) := daemon.submit around.now request
      (.ofOutcome outcome, daemon)
    | some _, _ => (⟨405, []⟩, daemon)

end Daemon

end TransparencyLog
