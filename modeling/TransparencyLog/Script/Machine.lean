import TransparencyLog.Script.Program

/-!
# Running a script

A machine works through a list of tasks: an expression to evaluate, or what to do with the values
just computed. Every expression evaluated is one operation; a script that needs more than its
share, calls too deeply or builds too large a value is stopped.

Values are copied: a variable holds its own value, and changing a part of it changes nothing else.

* `Script.Machine`, `Script.Machine.step`: one task;
* `Script.Machine.run`: until the tasks are done;
* `Script.Program.call`: the top-level statements, then one function.
-/

namespace TransparencyLog.Script

/-- How an assigned place is reached from its variable: by names and by indices computed before. -/
inductive Access
  | member (name : String)
  | item
deriving Repr

/-- The variables in sight, the latest first. -/
abbrev Scope := List (String × Value)

/-- What the machine has to do. -/
inductive Task
  | evaluate (e : Expr)
  | discard
  | unary (op : UnaryOp)
  | binary (op : BinaryOp)
  | both (right : Expr)
  | either (right : Expr)
  | truth
  | makeList (count : Nat)
  | makeTable (names : List String)
  | makeRange (closed : Bool)
  | member (name : String)
  | item
  | choose (yes no : Expr)
  | whileTest (condition body : Expr) (scope : Nat) (values : List Value)
  | whileAgain (condition body : Expr) (scope : Nat) (values : List Value)
  | eachBegin (name : String) (body : Expr)
  | eachAgain (name : String) (source : Value) (body : Expr) (scope : Nat) (values : List Value)
  | declare (name : String)
  | assign (root : String) (path : List Access) (op : Option BinaryOp)
  | apply (name : String) (count : Nat)
  | applyAt (name : String) (count : Nat) (root : String) (path : List Access)
  | call (f : Function)
  | result
  | throwing
  | leaveScope (scope : Nat)
  | leaveCall (scope : Scope) (values : List Value)

/-- The state of a run: tasks ahead, values computed, variables, open calls, operations used. -/
structure Machine where
  tasks : List Task
  values : List Value := []
  scope : Scope := []
  calls : Nat := 0
  operations : Nat := 0

namespace Machine

/-- The most operations of a run. -/
def maxOperations : Nat := 100000

/-- The most calls open at a time. -/
def maxCalls : Nat := 32

/-- The variable and the accesses a place consists of, with the indices to evaluate. -/
def place? : Expr → Option (String × List Access × List Expr)
  | .named name => some (name, [], [])
  | .member target name => do
    let (root, path, indices) ← place? target
    return (root, path ++ [.member name], indices)
  | .item target index => do
    let (root, path, indices) ← place? target
    return (root, path ++ [.item], indices ++ [index])
  | _ => none

/-- Reads the part of a value at a path. -/
def readAt : List Access → List Value → Value → Except Fault Value
  | [], _, v => .ok v
  | .member name :: path, indices, v => do readAt path indices (← v.member name)
  | .item :: path, index :: indices, v => do readAt path indices (← v.item index)
  | .item :: _, [], _ => .error (.wrongType "index")

/-- Changes the part of a value at a path. -/
def changeAt (f : Value → Except Fault Value) :
    List Access → List Value → Value → Except Fault Value
  | [], _, v => f v
  | .member name :: path, indices, v => v.replaceMember name (changeAt f path indices)
  | .item :: path, index :: indices, v => v.replaceItem index (changeAt f path indices)
  | .item :: _, [], _ => .error (.wrongType "index")

/-- Changes the latest variable of a name. -/
def changeVariable (name : String) (f : Value → Except Fault Value) : Scope → Except Fault Scope
  | [] => .error (.unknownVariable name)
  | (n, v) :: rest =>
    if n = name then do return (n, ← f v) :: rest
    else do return (n, v) :: (← changeVariable name f rest)

/-- The last `count` values, oldest first, and the values before them. -/
def takeValues (count : Nat) (values : List Value) : List Value × List Value :=
  ((values.take count).reverse, values.drop count)

/-- How many indices a path needs. -/
def indexCount (path : List Access) : Nat :=
  path.countP fun | .item => true | _ => false

/-- The machine with a value computed. -/
def push (m : Machine) (v : Value) : Machine := { m with values := v :: m.values }

/-- The machine with more tasks in front. -/
def plan (m : Machine) (tasks : List Task) : Machine := { m with tasks := tasks ++ m.tasks }

/-- The machine with only the first variables left in sight. -/
def shrink (m : Machine) (scope : Nat) : Machine :=
  { m with scope := m.scope.drop (m.scope.length - scope) }

/-- The statements of a block; all but the last have no use for their value, and idle ones among
those are left out. -/
def blockTasks : List Expr → List Task
  | [] => []
  | [s] => [.evaluate s]
  | s :: rest =>
    if s.isIdle then blockTasks rest else .evaluate s :: .discard :: blockTasks rest

/-- What a function that every script has does to a value: the answer and the changed value. -/
def builtin (name : String) (target : Value) (args : List Value) : Except Fault (Value × Value) :=
  match name, args, target with
  | "len", [], v =>
    match v.count? with
    | some n => .ok (.integer n, v)
    | none => .error (.unknownFunction name)
  | "push", [a], .list items => do
    return (.unit, ← (Value.list (items ++ [a])).limited)
  | _, _, _ => .error (.unknownFunction name)

/-- Goes on after the innermost loop, or with its next round. -/
def unwindLoop (again : Bool) : List Task → Option (List Task × Nat × List Value)
  | [] => none
  | .whileAgain c b scope values :: rest =>
    some (if again then .whileAgain c b scope values :: rest else rest, scope, values)
  | .eachAgain n s b scope values :: rest =>
    some (if again then .eachAgain n s b scope values :: rest else rest, scope, values)
  | .leaveCall _ _ :: _ => none
  | _ :: rest => unwindLoop again rest

/-- Goes on after the innermost call. -/
def unwindCall : List Task → List Task
  | [] => []
  | .leaveCall scope values :: rest => .leaveCall scope values :: rest
  | _ :: rest => unwindCall rest

def evaluate (program : Program) (m : Machine) : Expr → Except Fault Machine
  | .literal v => do return m.push (← v.limited)
  | .named name =>
    match m.scope.lookup name with
    | some v => .ok (m.push v)
    | none => .error (.unknownVariable name)
  | .list items => .ok (m.plan (items.map .evaluate ++ [.makeList items.length]))
  | .table fields =>
    .ok (m.plan (fields.map (fun f => .evaluate f.2) ++ [.makeTable (fields.map Prod.fst)]))
  | .range a b closed => .ok (m.plan [.evaluate a, .evaluate b, .makeRange closed])
  | .unary op e => .ok (m.plan [.evaluate e, .unary op])
  | .binary op a b => .ok (m.plan [.evaluate a, .evaluate b, .binary op])
  | .both a b => .ok (m.plan [.evaluate a, .both b])
  | .either a b => .ok (m.plan [.evaluate a, .either b])
  | .call name args =>
    match program.function? name args.length, args with
    | some f, _ => .ok (m.plan (args.map .evaluate ++ [.call f]))
    | none, target :: rest => .ok (m.plan [.evaluate (.method target name rest)])
    | none, [] => .error (.unknownFunction name)
  | .method target name args =>
    match place? target with
    | some (root, path, indices) =>
      .ok (m.plan (indices.map .evaluate ++ args.map .evaluate ++
        [.applyAt name args.length root path]))
    | none => .ok (m.plan (.evaluate target :: args.map .evaluate ++ [.apply name args.length]))
  | .member target name => .ok (m.plan [.evaluate target, .member name])
  | .item target index => .ok (m.plan [.evaluate target, .evaluate index, .item])
  | .block [] => .ok (m.push .unit)
  | .block body => .ok (m.plan (blockTasks body ++ [.leaveScope m.scope.length]))
  | .choice c yes no => .ok (m.plan [.evaluate c, .choose yes no])
  | .repeatWhile c body =>
    .ok (m.plan [.evaluate c, .whileTest c body m.scope.length m.values])
  | .forEach name source body => .ok (m.plan [.evaluate source, .eachBegin name body])
  | .declare name e => .ok (m.plan [.evaluate e, .declare name])
  | .assign target op e =>
    match place? target with
    | some (root, path, indices) =>
      .ok (m.plan (.evaluate e :: indices.map .evaluate ++ [.assign root path op]))
    | none => .error .badSource
  | .leaveLoop =>
    match unwindLoop false m.tasks with
    | some (tasks, scope, values) =>
      .ok (({ m with tasks, values := .unit :: values } : Machine).shrink scope)
    | none => .error .badSource
  | .nextRound =>
    match unwindLoop true m.tasks with
    | some (tasks, scope, values) =>
      .ok (({ m with tasks, values := .unit :: values } : Machine).shrink scope)
    | none => .error .badSource
  | .result e => .ok (m.plan [.evaluate e, .result])
  | .throwing e => .ok (m.plan [.evaluate e, .throwing])
  | .importing e => .ok (m.plan [.evaluate e, .throwing])

/-- The next round of a loop over a source, or its end. -/
def nextEach (m : Machine) (name : String) (source : Value) (body : Expr) (scope : Nat)
    (values : List Value) : Machine :=
  match source.next? with
  | none => { m with values := .unit :: values }
  | some (v, rest) =>
    { m with values, scope := (name, v) :: m.scope }.plan
      [.evaluate body, .eachAgain name rest body scope values]

/-- Carries out a task that uses the values computed. -/
def carryOut (m : Machine) : Task → List Value → Except Fault Machine
  | .discard, _ :: rest => .ok { m with values := rest }
  | .unary op, v :: rest => do return { m with values := (← v.unary op) :: rest }
  | .binary op, b :: a :: rest => do return { m with values := (← a.binary op b) :: rest }
  | .both right, .bool b :: rest =>
    if b then .ok ({ m with values := rest }.plan [.evaluate right, .truth])
    else .ok { m with values := .bool false :: rest }
  | .either right, .bool b :: rest =>
    if b then .ok { m with values := .bool true :: rest }
    else .ok ({ m with values := rest }.plan [.evaluate right, .truth])
  | .truth, .bool b :: rest => .ok { m with values := .bool b :: rest }
  | .makeList count, values => do
    let (items, rest) := takeValues count values
    return { m with values := (← (Value.list items).limited) :: rest }
  | .makeTable names, values => do
    let (items, rest) := takeValues names.length values
    return { m with values := (← (Value.ofFields (names.zip items)).limited) :: rest }
  | .makeRange closed, .integer b :: .integer a :: rest =>
    .ok { m with values := .range a (if closed then b + 1 else b) :: rest }
  | .member name, v :: rest => do return { m with values := (← v.member name) :: rest }
  | .item, index :: v :: rest => do return { m with values := (← v.item index) :: rest }
  | .choose yes no, .bool b :: rest =>
    .ok ({ m with values := rest }.plan [.evaluate (if b then yes else no)])
  | .whileTest c body scope values, .bool b :: _ =>
    if b then .ok ({ m with values }.plan [.evaluate body, .whileAgain c body scope values])
    else .ok { m with values := .unit :: values }
  | .whileAgain c body scope values, _ =>
    .ok ({ m with values }.plan [.evaluate c, .whileTest c body scope values])
  | .eachBegin name body, v :: rest =>
    if v.isSource then .ok (m.nextEach name v body m.scope.length rest)
    else .error (.wrongType "for")
  | .eachAgain name source body scope values, _ =>
    .ok ((m.shrink scope).nextEach name source body scope values)
  | .declare name, v :: rest =>
    .ok { m with values := .unit :: rest, scope := (name, v) :: m.scope }
  | .assign root path op, values => do
    let (indices, rest) := takeValues (indexCount path) values
    match rest with
    | [] => .error .badSource
    | v :: rest =>
      let change (old : Value) : Except Fault Value :=
        match op with
        | none => .ok v
        | some .add => old.accumulate v
        | some op => old.binary op v
      let scope ← changeVariable root (changeAt change path indices) m.scope
      return { m with values := .unit :: rest, scope }
  | .apply name count, values => do
    let (args, rest) := takeValues count values
    match rest with
    | [] => .error .badSource
    | v :: rest =>
      let (answer, _) ← builtin name v args
      return { m with values := answer :: rest }
  | .applyAt name count root path, values => do
    let (args, rest) := takeValues count values
    let (indices, rest) := takeValues (indexCount path) rest
    match m.scope.lookup root with
    | none => .error (.unknownVariable root)
    | some whole =>
      let old ← readAt path indices whole
      let (answer, new) ← builtin name old args
      if name = "len" then return { m with values := answer :: rest }
      let scope ← changeVariable root (changeAt (fun _ => .ok new) path indices) m.scope
      return { m with values := answer :: rest, scope }
  | .call f, values => do
    if maxCalls ≤ m.calls then .error .tooManyCalls
    let (args, rest) := takeValues f.parameters.length values
    return { m with
      values := []
      scope := (f.parameters.zip args).reverse
      calls := m.calls + 1 }.plan [.evaluate f.body, .leaveCall m.scope rest]
  | .result, v :: _ => .ok { m with values := [v], tasks := unwindCall m.tasks }
  | .leaveScope scope, _ => .ok (m.shrink scope)
  | .leaveCall scope values, v :: _ =>
    .ok { m with values := v :: values, scope, calls := m.calls - 1 }
  | .throwing, _ => .error .thrown
  | _, _ => .error (.wrongType "operand")

/-- One task further; `none` when there is none left. -/
def step (program : Program) (m : Machine) : Except Fault (Option Machine) :=
  match m.tasks with
  | [] => .ok none
  | .evaluate e :: rest =>
    if maxOperations ≤ m.operations then .error .tooManyOperations
    else (evaluate program { m with tasks := rest, operations := m.operations + 1 } e).map some
  | task :: rest => (carryOut { m with tasks := rest } task m.values).map some

/-- Works until no task is left, for at most so many steps. -/
def run (program : Program) : Nat → Machine → Except Fault Machine
  | 0, _ => .error .tooManyOperations
  | steps + 1, m =>
    match m.step program with
    | .error fault => .error fault
    | .ok none => .ok m
    | .ok (some next) => run program steps next

/-- No run within its operations takes more steps: an operation plans few tasks. -/
def maxSteps : Nat := 16 * maxOperations

end Machine

namespace Program

/-- The tasks of a call: the statements first, then the function on its arguments. -/
def callTasks (program : Program) (f : Function) (args : List Value) : List Task :=
  .evaluate (.block program.statements) :: .leaveCall [] [] ::
    (args.map fun v => .evaluate (.literal v)) ++ [.call f]

/-- The value a function gives for some arguments. -/
def call (program : Program) (f : Function) (args : List Value) : Except Fault Value := do
  let m ← Machine.run program Machine.maxSteps
    { tasks := program.callTasks f args, calls := 1 }
  return m.values.head?.getD .unit

end Program

end TransparencyLog.Script
