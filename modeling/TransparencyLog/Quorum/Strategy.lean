import TransparencyLog.Quorum.Percentage

/-!
# Strategies

A strategy trusts one named log, asks for a share of the answers, runs a script, or tries other
strategies in order until one decides.

* `Quorum.Strategy`, `Quorum.Strategy.name`;
* `Quorum.Strategy.decide`, `Quorum.Strategy.decideFirst`.
-/

namespace TransparencyLog.Quorum

/-- A way to decide. A script is given by what it decides. -/
inductive Strategy
  | logName (trusted : String)
  | percentage (minimum : Nat)
  | script (run : List Answer → Except DecisionError Decision)
  | aggregate (members : List Strategy)
deriving Inhabited

namespace Strategy

/-- The strategy's kind. -/
def name : Strategy → String
  | .logName _ => "logname"
  | .percentage _ => "percentage"
  | .script _ => "script"
  | .aggregate _ => "aggregate"

/-- Decides as one log answered. -/
def decideByName (trusted : String) (answers : List Answer) : Except DecisionError Decision :=
  if answers.isEmpty then .error .noInputs
  else
    match answers.find? fun answer => answer.logName == trusted with
    | some answer => .ok ⟨answer.outputHash, 100, [answer.logName]⟩
    | none => .error (.logNotFound trusted)

mutual

def decide (answers : List Answer) : Strategy → Except DecisionError Decision
  | .logName trusted => decideByName trusted answers
  | .percentage minimum => decideByShare minimum answers
  | .script run => if answers.isEmpty then .error .noInputs else run answers
  | .aggregate members =>
    if answers.isEmpty then .error .noInputs
    else
      match decideFirst answers members with
      | .ok decision => .ok decision
      | .error failures => .error (.aggregate failures)

/-- The first member's decision, or why each member gave none. -/
def decideFirst (answers : List Answer) :
    List Strategy → Except (List (String × DecisionError)) Decision
  | [] => .error []
  | member :: rest =>
    match decide answers member with
    | .ok decision => .ok decision
    | .error e =>
      match decideFirst answers rest with
      | .ok decision => .ok decision
      | .error failures => .error ((member.name, e) :: failures)

end

end Strategy

end TransparencyLog.Quorum
