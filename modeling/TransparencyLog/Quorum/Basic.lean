import TransparencyLog.Script.Value

/-!
# Deciding among logs

Several logs answer one question with an output hash each. A decision names the hash to believe,
how sure the rule is of it, and the logs that agree.

* `Quorum.Answer`, `Quorum.Decision`;
* `Quorum.DecisionError`, `Quorum.DecisionError.message`.
-/

namespace TransparencyLog.Quorum

/-- What one log answered, after its proof was checked. -/
structure Answer where
  logName : String
  outputHash : String
deriving DecidableEq, Repr

/-- A hash to believe, the confidence in it in percent, and the logs that agree. -/
structure Decision where
  outputHash : String
  confidence : Nat
  logNames : List String
deriving DecidableEq, Repr

/-- Why a script gives no decision. -/
inductive ScriptFault
  | engine (fault : Script.Fault)
  | noEntryPoint
  | notTable
  | hashMissing
  | hashNotText
  | namesMissing
  | namesNotList
  | nameNotText (index : Nat)
deriving DecidableEq, Repr

def ScriptFault.message : ScriptFault → String
  | .engine fault => fault.message
  | .noEntryPoint => "script must define fn decide(inputs)"
  | .notTable => "return value is not a map"
  | .hashMissing => "OutputHash missing"
  | .hashNotText => "OutputHash is not a string"
  | .namesMissing => "LogNames missing"
  | .namesNotList => "LogNames is not an array"
  | .nameNotText index => "LogNames[" ++ toString index ++ "] is not a string"

/-- Why a rule cannot be set up. -/
inductive RuleFault
  | nothing
  | minimumTooLarge (minimum : Nat)
deriving DecidableEq, Repr

def RuleFault.message : RuleFault → String
  | .nothing => "no decider configured"
  | .minimumTooLarge minimum => "minimum " ++ toString minimum ++ " exceeds 100"

/-- Why there is no decision. An aggregate tells why each of its members gave none. -/
inductive DecisionError
  | noInputs
  | logNotFound (logName : String)
  | belowMinimum (minimum : Nat)
  | script (fault : ScriptFault)
  | aggregate (failures : List (String × DecisionError))
  | config (fault : RuleFault)
deriving Repr, Inhabited

namespace DecisionError

mutual

def message : DecisionError → String
  | .noInputs => "no inputs to decide on"
  | .logNotFound logName => "could not find any match for log name " ++ logName
  | .belowMinimum minimum => "could not reach the minimum " ++ toString minimum ++ "% quorum"
  | .script fault => "script error: " ++ fault.message
  | .aggregate failures =>
    "encountered errors while deciding: " ++ String.intercalate "; " (failureTexts failures)
  | .config fault => "config error: " ++ fault.message

/-- Each member's name with its error's text. -/
def failureTexts : List (String × DecisionError) → List String
  | [] => []
  | (name, e) :: rest => (name ++ ": " ++ message e) :: failureTexts rest

end

end DecisionError

end TransparencyLog.Quorum
