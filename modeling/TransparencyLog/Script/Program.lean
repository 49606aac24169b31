import TransparencyLog.Script.Token
import TransparencyLog.Script.Value

/-!
# Scripts

A script is a list of functions, told apart by name and number of parameters, and of statements to
run before any of them. Statements are expressions: a block has the value of its last one.

* `Script.Expr`, `Script.Function`, `Script.Program`;
* `Script.Program.parse?`: the program a source stands for.
-/

namespace TransparencyLog.Script

/-- An expression or statement. -/
inductive Expr
  | literal (v : Value)
  | named (name : String)
  | list (items : List Expr)
  | table (fields : List (String × Expr))
  | range (first beyond : Expr) (closed : Bool)
  | unary (op : UnaryOp) (e : Expr)
  | binary (op : BinaryOp) (left right : Expr)
  | both (left right : Expr)
  | either (left right : Expr)
  | call (name : String) (args : List Expr)
  | method (target : Expr) (name : String) (args : List Expr)
  | member (target : Expr) (name : String)
  | item (target index : Expr)
  | block (body : List Expr)
  | choice (condition yes no : Expr)
  | repeatWhile (condition body : Expr)
  | forEach (name : String) (source body : Expr)
  | declare (name : String) (value : Expr)
  | assign (target : Expr) (op : Option BinaryOp) (value : Expr)
  | leaveLoop
  | nextRound
  | result (value : Expr)
  | throwing (value : Expr)
  | importing (path : Expr)
deriving Inhabited, Repr

/-- A function. -/
structure Function where
  name : String
  parameters : List String
  body : Expr
deriving Repr

/-- A script. -/
structure Program where
  functions : List Function
  statements : List Expr
deriving Repr

namespace Program

/-- The function of a name and number of parameters. -/
def function? (program : Program) (name : String) (count : Nat) : Option Function :=
  program.functions.find? fun f => f.name == name && f.parameters.length == count

end Program

namespace Expr

mutual

/-- Only reads variables and literals and comes to an end, so that leaving it out changes
nothing. -/
def isIdle : Expr → Bool
  | .literal _ => true
  | .named _ => true
  | .list items => allIdle items
  | .table fields => allFieldsIdle fields
  | .both left right => isIdle left && isIdle right
  | .either left right => isIdle left && isIdle right
  | .block body => allIdle body
  | .choice condition yes no => isIdle condition && isIdle yes && isIdle no
  | .forEach _ source body => isIdle source && isIdle body
  | _ => false

/-- Every expression is idle. -/
def allIdle : List Expr → Bool
  | [] => true
  | e :: rest => isIdle e && allIdle rest

def allFieldsIdle : List (String × Expr) → Bool
  | [] => true
  | (_, e) :: rest => isIdle e && allFieldsIdle rest

end

/-- A statement that needs no semicolon after it. -/
def endsItself : Expr → Bool
  | .block _ => true
  | .choice _ _ _ => true
  | .repeatWhile _ _ => true
  | .forEach _ _ _ => true
  | _ => false

/-- Something that can be assigned to: a variable or a part of one. -/
def isPlace : Expr → Bool
  | .named _ => true
  | .member target _ => isPlace target
  | .item target _ => isPlace target
  | _ => false

end Expr

/-! ## Reading -/

/-- Takes an expression from the front of the tokens. -/
abbrev Reading (α : Type) := StateT (List Token) Option α

namespace Reading

/-- The next token, left in place. -/
def peek : Reading (Option Token) := do return (← get).head?

def tryMark (written : String) : Reading Bool := do
  match ← get with
  | .mark w :: rest => if w = written then set rest; return true else return false
  | _ => return false

def mark (written : String) : Reading Unit := do
  if !(← tryMark written) then failure

def tryWord (name : String) : Reading Bool := do
  match ← get with
  | .word w :: rest => if w = name then set rest; return true else return false
  | _ => return false

/-- Words with a meaning of their own. -/
def keywords : List String :=
  ["true", "false", "let", "const", "if", "else", "switch", "do", "while", "until", "loop", "for",
    "in", "continue", "break", "fn", "private", "return", "throw", "try", "catch", "import",
    "export", "as", "global", "this"]

def name : Reading String := do
  match ← get with
  | .word w :: rest => if keywords.contains w then failure else set rest; return w
  | _ => failure

/-- Names between commas up to a closing parenthesis; the first argument bounds their number. -/
def names : Nat → Reading (List String)
  | 0 => failure
  | fuel + 1 => do
    if ← tryMark ")" then return []
    let first ← name
    if ← tryMark ")" then return [first]
    mark ","
    return first :: (← names fuel)

/-- How strongly the operators between two operands bind. -/
def binaryOps : List (String × Nat × (Expr → Expr → Expr)) :=
  [("||", 1, .either), ("&&", 2, .both),
    ("==", 3, .binary .equal), ("!=", 3, .binary .different),
    ("<", 4, .binary .less), ("<=", 4, .binary .atMost), (">", 4, .binary .greater),
    (">=", 4, .binary .atLeast),
    ("..", 5, fun a b => .range a b false), ("..=", 5, fun a b => .range a b true),
    ("+", 6, .binary .add), ("-", 6, .binary .subtract),
    ("*", 7, .binary .multiply), ("/", 7, .binary .divide), ("%", 7, .binary .remainder)]

def assignments : List (String × Option BinaryOp) :=
  [("=", none), ("+=", some .add), ("-=", some .subtract), ("*=", some .multiply),
    ("/=", some .divide), ("%=", some .remainder)]

/-- The operator that comes next, if it binds at least as strongly as asked. -/
def operator? (least : Nat) : Option Token → Option (Nat × (Expr → Expr → Expr))
  | some (.mark w) => (binaryOps.lookup w).filter fun (strength, _) => least ≤ strength
  | _ => none

/-- A negated literal is a literal. -/
def negated : Expr → Expr
  | .literal (.integer n) => .literal (.integer (-n))
  | e => .unary .negate e

def assignment? : Option Token → Option (Option BinaryOp)
  | some (.mark w) => assignments.lookup w
  | _ => none

mutual

/-- An expression whose operators bind at least as strongly as `least`. The first argument of this
and the following readers bounds the depth. -/
def expression (inLoop : Bool) : Nat → Nat → Reading Expr
  | 0, _ => failure
  | fuel + 1, least => do
    let first ← operand inLoop fuel
    operations inLoop fuel least first

/-- The operators and operands after a first operand. -/
def operations (inLoop : Bool) : Nat → Nat → Expr → Reading Expr
  | 0, _, _ => failure
  | fuel + 1, least, left => do
    match operator? least (← peek) with
    | none => return left
    | some (strength, build) => do
      modify List.tail
      let right ← expression inLoop fuel (strength + 1)
      operations inLoop fuel least (build left right)

/-- An operand with the operators before it. -/
def operand (inLoop : Bool) : Nat → Reading Expr
  | 0 => failure
  | fuel + 1 => do
    if ← tryMark "-" then return negated (← operand inLoop fuel)
    if ← tryMark "+" then return ← operand inLoop fuel
    if ← tryMark "!" then return .unary .not (← operand inLoop fuel)
    let e ← primary inLoop fuel
    parts inLoop fuel e

/-- Members, indices and calls after an operand. -/
def parts (inLoop : Bool) : Nat → Expr → Reading Expr
  | 0, _ => failure
  | fuel + 1, e => do
    if ← tryMark "." then
      let n ← name
      if ← tryMark "(" then
        let args ← arguments inLoop fuel ")"
        return ← parts inLoop fuel (.method e n args)
      return ← parts inLoop fuel (.member e n)
    if ← tryMark "[" then
      let index ← expression inLoop fuel 0
      mark "]"
      return ← parts inLoop fuel (.item e index)
    return e

/-- Expressions between commas up to a closing mark. -/
def arguments (inLoop : Bool) : Nat → String → Reading (List Expr)
  | 0, _ => failure
  | fuel + 1, closing => do
    if ← tryMark closing then return []
    let first ← expression inLoop fuel 0
    if ← tryMark closing then return [first]
    mark ","
    return first :: (← arguments inLoop fuel closing)

/-- Fields between commas up to a closing brace; each name at most once. -/
def fields (inLoop : Bool) : Nat → List String → Reading (List (String × Expr))
  | 0, _ => failure
  | fuel + 1, seen => do
    if ← tryMark "\x7d" then return []
    let n ← match ← get with
      | .text s :: rest => set rest; pure s
      | _ => name
    if seen.contains n then failure
    mark ":"
    let e ← expression inLoop fuel 0
    if ← tryMark "\x7d" then return [(n, e)]
    mark ","
    return (n, e) :: (← fields inLoop fuel (n :: seen))

def primary (inLoop : Bool) : Nat → Reading Expr
  | 0 => failure
  | fuel + 1 => do
    match ← get with
    | .integer n :: rest => set rest; return .literal (.integer n)
    | .text s :: rest => set rest; return .literal (.text s)
    | .char c :: rest => set rest; return .literal (.char c)
    | .mark "(" :: .mark ")" :: rest => set rest; return .literal .unit
    | .mark "(" :: rest => do
      set rest
      let e ← expression inLoop fuel 0
      mark ")"
      return e
    | .mark "[" :: rest => set rest; return .list (← arguments inLoop fuel "]")
    | .mark "#\x7b" :: rest => set rest; return .table (← fields inLoop fuel [])
    | .mark "\x7b" :: _ => block inLoop fuel
    | .word "true" :: rest => set rest; return .literal (.bool true)
    | .word "false" :: rest => set rest; return .literal (.bool false)
    | .word "if" :: _ => compound inLoop fuel
    | .word "while" :: _ => compound inLoop fuel
    | .word "loop" :: _ => compound inLoop fuel
    | .word "for" :: _ => compound inLoop fuel
    | _ => do
      let n ← name
      if ← tryMark "(" then return .call n (← arguments inLoop fuel ")")
      return .named n

/-- A statement with blocks of its own. -/
def compound (inLoop : Bool) : Nat → Reading Expr
  | 0 => failure
  | fuel + 1 => do
    if ← tryWord "if" then
      let condition ← expression inLoop fuel 0
      let yes ← block inLoop fuel
      if ← tryWord "else" then
        match ← peek with
        | some (.word "if") => return .choice condition yes (← compound inLoop fuel)
        | _ => return .choice condition yes (← block inLoop fuel)
      return .choice condition yes (.block [])
    if ← tryWord "while" then
      let condition ← expression inLoop fuel 0
      return .repeatWhile condition (← block true fuel)
    if ← tryWord "loop" then
      return .repeatWhile (.literal (.bool true)) (← block true fuel)
    if ← tryWord "for" then
      let n ← name
      if !(← tryWord "in") then failure
      let source ← expression inLoop fuel 0
      return .forEach n source (← block true fuel)
    block inLoop fuel

def block (inLoop : Bool) : Nat → Reading Expr
  | 0 => failure
  | fuel + 1 => do
    mark "\x7b"
    return .block (← statements inLoop fuel)

/-- Statements up to a closing brace. -/
def statements (inLoop : Bool) : Nat → Reading (List Expr)
  | 0 => failure
  | fuel + 1 => do
    if ← tryMark "\x7d" then return []
    if ← tryMark ";" then return ← statements inLoop fuel
    let s ← statement inLoop fuel
    if ← tryMark "\x7d" then return [s]
    if !(← tryMark ";") && !s.endsItself then failure
    return s :: (← statements inLoop fuel)

def statement (inLoop : Bool) : Nat → Reading Expr
  | 0 => failure
  | fuel + 1 => do
    match ← get with
    | .word "let" :: rest => do
      set rest
      let n ← name
      if ← tryMark "=" then return .declare n (← expression inLoop fuel 0)
      return .declare n (.literal .unit)
    | .word "break" :: rest => set rest; if inLoop then return .leaveLoop else failure
    | .word "continue" :: rest => set rest; if inLoop then return .nextRound else failure
    | .word "return" :: rest => set rest; return .result (← operandOrUnit inLoop fuel)
    | .word "throw" :: rest => set rest; return .throwing (← operandOrUnit inLoop fuel)
    | .word "import" :: rest => do
      set rest
      let path ← expression inLoop fuel 0
      if ← tryWord "as" then
        let _ ← name
      return .importing path
    | .word "if" :: _ => compound inLoop fuel
    | .word "while" :: _ => compound inLoop fuel
    | .word "loop" :: _ => compound inLoop fuel
    | .word "for" :: _ => compound inLoop fuel
    | .mark "\x7b" :: _ => compound inLoop fuel
    | _ => do
      let e ← expression inLoop fuel 0
      match assignment? (← peek) with
      | some op =>
        if e.isPlace then
          modify List.tail
          return .assign e op (← expression inLoop fuel 0)
        else failure
      | none => return e

/-- An expression, or nothing before the end of a statement. -/
def operandOrUnit (inLoop : Bool) : Nat → Reading Expr
  | 0 => failure
  | fuel + 1 => do
    match ← peek with
    | none => return .literal .unit
    | some (.mark ";") => return .literal .unit
    | some (.mark "\x7d") => return .literal .unit
    | _ => expression inLoop fuel 0

end

/-- A function after the word that begins it. -/
def function (fuel : Nat) : Reading Function := do
  let n ← name
  mark "("
  let parameters ← names fuel
  if parameters.eraseDups.length ≠ parameters.length then failure
  return ⟨n, parameters, ← block false fuel⟩

/-- The functions and statements of a whole script, one after the other. -/
def program (fuel : Nat) : Nat → Program → Reading Program
  | 0, _ => failure
  | more + 1, done => do
    if (← get).isEmpty then return ⟨done.functions.reverse, done.statements.reverse⟩
    if ← tryMark ";" then return ← program fuel more done
    if ← tryWord "fn" then
      let f ← function fuel
      if (done.function? f.name f.parameters.length).isSome then failure
      return ← program fuel more { done with functions := f :: done.functions }
    let s ← statement false fuel
    if !(← tryMark ";") && !s.endsItself && !(← get).isEmpty then failure
    program fuel more { done with statements := s :: done.statements }

end Reading

/-- The program a source stands for. -/
def Program.parse? (source : String) : Option Program := do
  let tokens ← Token.scan? source
  let fuel := 16 * (tokens.length + 1)
  let (program, _) ← Reading.program fuel fuel ⟨[], []⟩ tokens
  return program

end TransparencyLog.Script
