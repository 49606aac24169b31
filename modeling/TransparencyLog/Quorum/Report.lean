import TransparencyLog.Data.Basic
import TransparencyLog.Quorum.Correlation

/-!
# Reports

What a decision, or the lack of one, looks like as data.

* `Quorum.Correlation.toData`, `Quorum.NoDecision.toData`.
-/

namespace TransparencyLog.Quorum

def namesToData (names : List String) : Data := .list (names.map Data.text)

def Answer.toData (answer : Answer) : Data :=
  .object [("log_name", .text answer.logName), ("output_hash", .text answer.outputHash)]

def Decision.toData (decision : Decision) : Data :=
  .object [("output_hash", .text decision.outputHash), ("confidence", .integer decision.confidence),
    ("log_names", namesToData decision.logNames)]

/-- A decision, beside the logs that disagree or are missing, as data. -/
def Correlation.toData (correlation : Correlation) : Data :=
  .object [("decision", correlation.decision.toData),
    ("mismatches", .list (correlation.mismatches.map Answer.toData)),
    ("misses", namesToData correlation.misses)]

/-- The lack of a decision as data: why, and all that was seen. -/
def NoDecision.toData (failure : NoDecision) : Data :=
  .object [("error", .text failure.message),
    ("responses", .list (failure.responses.map Answer.toData)),
    ("misses", namesToData failure.misses)]

end TransparencyLog.Quorum
