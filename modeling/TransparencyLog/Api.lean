import TransparencyLog.Ledger

/-!
# Asking a log

The calls that a log answers, wherever it lives, and the ways in which asking can fail. A log in
this process answers them from its ledger and store.

* `LogCall`: the calls, each with the type of its answer;
* `ApiError`, `ApiError.message`;
* `ServedLog`, `ServedLog.answer`: a log in this process.
-/

namespace TransparencyLog

/-- A call to a log, by the type of its answer. -/
inductive LogCall : Type → Type
  | head : LogCall TreeHead
  | consistency (first second : UInt64) : LogCall (List Digest)
  | audit (index size : UInt64) : LogCall (List Digest)
  | entries (start finish : UInt64) : LogCall (List Bytes)
  | mapValue (key : Bytes) (root : Digest) : LogCall MapValue
  | submit (items : List Record) : LogCall TreeHead

/-- Why a log could not be asked, or what it refused. -/
inductive ApiError
  | log (error : LogError)
  | transport (text : String)
  | malformedResponse (text : String)
  | remote (status : Nat) (text : String)
  | timeout
  | task
deriving DecidableEq, Repr

def ApiError.message : ApiError → String
  | .log error => "log error: " ++ error.message
  | .transport text => "transport error: " ++ text
  | .malformedResponse text => "transport error: malformed response: " ++ text
  | .remote status text => "remote error (" ++ toString status ++ "): " ++ text
  | .timeout => "request timed out"
  | .task => "task failed"

/-- A log served in this process. -/
structure ServedLog where
  ledger : Ledger
  store : Store

namespace ServedLog

/-- Opens a log on a store. -/
def resume (name : String) (signer : Signer) (store : Store) :
    Except LogError ServedLog × Store :=
  let (outcome, store) := Ledger.resume name signer store
  (outcome.map fun ledger => ⟨ledger, store⟩, store)

/-- The answer to a call, and the log after it. Only a submission changes the log. -/
def answer {α : Type} (log : ServedLog) : LogCall α → Except LogError α × ServedLog
  | .head => (.ok log.ledger.head, log)
  | .consistency first second =>
    (Ledger.consistencyProof log.store first.toNat second.toNat, log)
  | .audit index size => (Ledger.auditProof log.store index.toNat size.toNat, log)
  | .entries start finish => (Ledger.entries log.store start.toNat finish.toNat, log)
  | .mapValue key root =>
    ((Ledger.mapValue log.store key root).map fun (value, siblings) =>
      ⟨value, CompressedProof.ofSiblings siblings⟩, log)
  | .submit items =>
    let (outcome, ledger, store) := log.ledger.submit log.store items
    (outcome, ⟨ledger, store⟩)

/-- The answer to a call that changes nothing. -/
def read {α : Type} (log : ServedLog) (call : LogCall α) : Except ApiError α :=
  match (log.answer call).1 with
  | .ok a => .ok a
  | .error e => .error (.log e)

end ServedLog

end TransparencyLog
