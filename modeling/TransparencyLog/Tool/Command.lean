/-!
# The operator's commands

What an operator can ask for on a command line: to make a key, to show a log's head, to submit
pairs, to ask a daemon for a decision. Options may stand anywhere after the command, each once, and
may come from the environment instead.

* `Command`, `Command.parse`;
* `Usage`: why there is no command to run.
-/

namespace TransparencyLog

/-- A command. -/
inductive Command
  | makeKey (path : String)
  | showHead (url : String)
  | submit (url secret : String) (items : List String)
  | decide (url key : String)
deriving DecidableEq, Repr

/-- Why there is no command to run: help was asked for, or the arguments make no sense. -/
inductive Usage
  | help
  | wrong
deriving DecidableEq, Repr

namespace Command

/-- What stands after the name of a command: options with their values, and the rest. -/
structure Arguments where
  options : List (String × String) := []
  items : List String := []

/-- Whether an argument is an option or meant as one. -/
def isOption (argument : String) : Bool :=
  argument != "-" && "-".toList.isPrefixOf argument.toList

/-- The name and the value in an argument such as `--name=value`. -/
def splitOption (argument : String) : String × Option String :=
  let characters := argument.toList
  (String.ofList (characters.takeWhile (· != '=')),
    (characters.dropWhile (· != '=')).tail?.map String.ofList)

/-- Adds an option with its value; none may come twice. -/
def Arguments.addOption (given : Arguments) (known : List String) (name value : String) :
    Except Usage Arguments :=
  if known.contains name && (given.options.lookup name).isNone then
    .ok { given with options := (name, value) :: given.options }
  else .error .wrong

/-- Reads arguments, given the options that may occur. After `--` nothing is an option. -/
def read (known : List String) (given : Arguments) : List String → Except Usage Arguments
  | [] => .ok given
  | argument :: rest =>
    if argument = "--" then .ok { given with items := given.items ++ rest }
    else if argument = "--help" ∨ argument = "-h" then .error .help
    else if isOption argument then
      match splitOption argument, rest with
      | (name, some value), rest => do read known (← given.addOption known name value) rest
      | (name, none), value :: rest =>
        if isOption value then .error .wrong
        else do read known (← given.addOption known name value) rest
      | (_, none), [] => .error .wrong
    else read known { given with items := given.items ++ [argument] } rest

/-- The value of an option, or else that of a variable of the environment. -/
def Arguments.value (given : Arguments) (environment : String → Option String)
    (option variableName : String) : Except Usage String :=
  match (given.options.lookup option).or (environment variableName) with
  | some value => .ok value
  | none => .error .wrong

def Arguments.item (given : Arguments) : Except Usage String :=
  match given.items with
  | [item] => .ok item
  | _ => .error .wrong

def names : List String := ["keygen", "sth", "submit", "decide"]

def parse (environment : String → Option String) : List String → Except Usage Command
  | "keygen" :: rest => do
    let path ← (← read [] {} rest).item
    if path.isEmpty then throw .wrong
    return .makeKey path
  | "sth" :: rest => do
    let given ← read ["--url"] {} rest
    let url ← given.value environment "--url" "TLOG_URL"
    if given.items.isEmpty then return .showHead url else throw .wrong
  | "submit" :: rest => do
    let given ← read ["--url", "--secret"] {} rest
    let url ← given.value environment "--url" "TLOG_URL"
    let secret ← given.value environment "--secret" "TLOGD_SUBMIT_SECRET"
    if given.items.isEmpty then throw .wrong else return .submit url secret given.items
  | "decide" :: rest => do
    let given ← read ["--url"] {} rest
    return .decide (← given.value environment "--url" "TLOG_URL") (← given.item)
  | ["help"] | "--help" :: _ | "-h" :: _ => .error .help
  | ["help", name] => if names.contains name || name == "help" then .error .help else .error .wrong
  | _ => .error .wrong

end Command

end TransparencyLog
