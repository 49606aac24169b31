import TransparencyLog.Data.Basic
import TransparencyLog.Quorum.Strategy
import TransparencyLog.Script.Machine

/-!
# Rules

How a strategy is written down: a list of rules, each with the name of its engine. One rule gives
its own strategy; several give an aggregate that tries them in order. A script must define a
function `decide` of one parameter, which gets the answers as tables and returns a table with the
hash and the names of the agreeing logs.

* `Quorum.Rule`, `Quorum.Rule.ofData?`;
* `Quorum.Rule.strategy`, `Quorum.strategyOf`;
* `Quorum.scripted`: the strategy of a script.
-/

namespace TransparencyLog.Quorum

/-! ## Scripts -/

/-- The confidence in what a script decides: it cannot judge its own. -/
def scriptConfidence : Nat := 1

/-- An answer as a script sees it. -/
def Answer.toValue (answer : Answer) : Script.Value :=
  .table [("LogName", .text answer.logName), ("OutputHash", .text answer.outputHash)]

/-- The names in a list of values, from some position on. -/
def namesOf : Nat → List Script.Value → Except ScriptFault (List String)
  | _, [] => .ok []
  | index, .text name :: rest => do return name :: (← namesOf (index + 1) rest)
  | index, _ :: _ => .error (.nameNotText index)

/-- The decision that a script's answer stands for. -/
def decisionOf : Script.Value → Except ScriptFault Decision
  | .table fields => do
    let hash ← match fields.lookup "OutputHash" with
      | none => .error .hashMissing
      | some (.text hash) => .ok hash
      | some _ => .error .hashNotText
    let names ← match fields.lookup "LogNames" with
      | none => .error .namesMissing
      | some (.list names) => .ok names
      | some _ => .error .namesNotList
    return ⟨hash, scriptConfidence, ← namesOf 0 names⟩
  | _ => .error .notTable

/-- Runs a program's function on the answers. -/
def runScript (program : Script.Program) (entry : Script.Function) (answers : List Answer) :
    Except DecisionError Decision :=
  match program.call entry [.list (answers.map Answer.toValue)] with
  | .error fault => .error (.script (.engine fault))
  | .ok v =>
    match decisionOf v with
    | .ok decision => .ok decision
    | .error fault => .error (.script fault)

/-- The strategy of a script's source. -/
def scripted (source : String) : Except DecisionError Strategy :=
  match Script.Program.parse? source with
  | none => .error (.script (.engine .badSource))
  | some program =>
    match program.function? "decide" 1 with
    | none => .error (.script .noEntryPoint)
    | some entry => .ok (.script (runScript program entry))

/-! ## Rules -/

/-- One written rule. -/
inductive Rule
  | logName (name : String)
  | percentage (minimum : Nat)
  | script (source : String)
deriving DecidableEq, Repr

namespace Rule

/-- The value of a rule's only field besides its engine. -/
def only? (name : String) (d : Data) : Option Data := do
  match ← d.fields? ["engine", name] with
  | [some _, some value] => some value
  | _ => none

/-- The engine a rule names. -/
def engine? : Data → Option String
  | .table fields => do (← (← Data.atMostOnce (Data.named fields "engine"))).text?
  | .list (engine :: _) => engine.text?
  | _ => none

def ofData? (d : Data) : Option Rule := do
  match ← engine? d with
  | "logname" => return .logName (← (← only? "name" d).text?)
  | "percentage" => return .percentage (← (← only? "minimum" d).natural? UInt32.size)
  | "script" => return .script (← (← only? "script" d).text?)
  | _ => none

def listOfData? (d : Data) : Option (List Rule) := do (← d.list?).mapM ofData?

def strategy : Rule → Except DecisionError Strategy
  | .logName name => .ok (.logName name)
  | .percentage minimum =>
    if 100 < minimum then .error (.config (.minimumTooLarge minimum)) else .ok (.percentage minimum)
  | .script source => scripted source

end Rule

/-- The strategy of a list of rules. -/
def strategyOf : List Rule → Except DecisionError Strategy
  | [] => .error (.config .nothing)
  | [rule] => rule.strategy
  | rules => do return .aggregate (← rules.mapM Rule.strategy)

end TransparencyLog.Quorum
