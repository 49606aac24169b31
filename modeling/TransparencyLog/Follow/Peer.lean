import TransparencyLog.Api

/-!
# Peers

A followed log as its follower meets it: behind a call that takes time and may fail, with an answer
that may be forged. A peer whose behaviour has no faults answers at once with what its log says.

* `Behaviour`, `Peer`;
* `Reply`, `Peer.reply`: what a call to a peer ends in;
* `Reply.within`: the same under a time limit.
-/

namespace TransparencyLog

/-- How a peer treats calls for heads, consistency proofs and map values. The delay, in
milliseconds, comes first; then a crash, a failure, a forged answer, or what the log says. -/
structure Behaviour where
  delay : Nat := 0
  crash : Bool := false
  failure : Option ApiError := none
  failsProofsOnly : Bool := false
  head : Option TreeHead := none
  proof : Option (List Digest) := none
  value : Option MapValue := none

/-- A followed log: the log itself, the key its heads are checked with, its behaviour, and how many
calls it has had. -/
structure Peer where
  log : ServedLog
  verifier : Signer
  behaviour : Behaviour := {}
  calls : Nat := 0

/-- What a call ends in: a crash of the caller, or an answer, which may need work that a call out
of time does not get. -/
inductive Reply (α : Type)
  | crash
  | answer (answer : Except ApiError α) (needsWork : Bool)

namespace Behaviour

/-- The failure that a call meets. -/
def failureOf {α : Type} (behaviour : Behaviour) : LogCall α → Option ApiError
  | .consistency _ _ => behaviour.failure
  | .head => if behaviour.failsProofsOnly then none else behaviour.failure
  | .mapValue _ _ => if behaviour.failsProofsOnly then none else behaviour.failure
  | _ => none

/-- The forged answer to a call. -/
def forged {α : Type} (behaviour : Behaviour) : LogCall α → Option α
  | .head => behaviour.head
  | .consistency _ _ => behaviour.proof
  | .mapValue _ _ => behaviour.value
  | _ => none

end Behaviour

/-- Whether a log has to do work for a call. -/
def LogCall.needsWork {α : Type} : LogCall α → Bool
  | .head => false
  | _ => true

namespace Peer

/-- The peer with one more call. -/
def called (peer : Peer) : Peer := { peer with calls := peer.calls + 1 }

/-- What a call ends in, under the behaviour it met. -/
def reply {α : Type} (peer : Peer) (met : Behaviour) (call : LogCall α) : Reply α :=
  if met.crash then .crash
  else match met.failureOf call with
    | some e => .answer (.error e) false
    | none =>
      match met.forged call with
      | some a => .answer (.ok a) false
      | none => .answer (peer.log.read call) call.needsWork

end Peer

/-- How long a call takes and whether it ends in time. -/
def Behaviour.duration (behaviour : Behaviour) (limit : Nat) : Nat := min behaviour.delay limit

/-- What a call ends in when it has only so much time. -/
def Reply.within {α : Type} (reply : Reply α) (delay limit : Nat) : Reply α :=
  if limit < delay then .answer (.error .timeout) false
  else match reply with
    | .answer a true => if delay = limit then .answer (.error .timeout) false else .answer a true
    | r => r

end TransparencyLog
