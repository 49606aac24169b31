import TransparencyLog.Quorum.Strategy

/-!
# Correlations

A decision set beside what every log did: those that answered differently are mismatches, those
without an answer are misses. Without a decision, all that was observed is kept.

* `Quorum.Correlation`, `Quorum.NoDecision`, `Quorum.correlate`.
-/

namespace TransparencyLog.Quorum

/-- A decision, the answers that differ from it, and the logs without an answer. -/
structure Correlation where
  decision : Decision
  mismatches : List Answer
  misses : List String
deriving DecidableEq, Repr

/-- Why no decision was reached, and everything that was observed. -/
structure NoDecision where
  cause : DecisionError
  responses : List Answer
  misses : List String
deriving Repr

def NoDecision.message (failure : NoDecision) : String :=
  "no decision reached: " ++ failure.cause.message

/-- Decides and splits the answers into agreeing and mismatching ones. -/
def correlate (strategy : Strategy) (responses : List Answer) (misses : List String) :
    Except NoDecision Correlation :=
  match strategy.decide responses with
  | .ok decision =>
    .ok ⟨decision, responses.filter fun r => r.outputHash != decision.outputHash, misses⟩
  | .error cause => .error ⟨cause, responses, misses⟩

end TransparencyLog.Quorum
