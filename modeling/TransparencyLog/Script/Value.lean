/-!
# Values of the script language

What a decision script computes with: the unit value, truth values, 64-bit integers, characters,
texts, lists and tables. Integers are checked: a result outside 64 bits is a fault and never wraps.

* `Script.Value`, `Script.Fault`;
* `Script.Value.binary`, `Script.Value.unary`: the operators;
* `Script.Value.member`, `Script.Value.item`: parts of a value, and `replaceMember`, `replaceItem`.
-/

namespace TransparencyLog.Script

/-- A value of a script. -/
inductive Value
  | unit
  | bool (b : Bool)
  | integer (n : Int)
  | char (c : Char)
  | text (s : String)
  | list (items : List Value)
  | table (fields : List (String × Value))
  | range (first beyond : Int)
deriving Inhabited, BEq, Repr

/-- Why a script is refused or stops. -/
inductive Fault
  | badSource
  | unknownVariable (name : String)
  | unknownFunction (name : String)
  | wrongType (what : String)
  | outOfBounds (index : Int)
  | divisionByZero
  | overflow
  | thrown
  | importRefused
  | tooManyOperations
  | tooManyCalls
  | tooLarge
deriving DecidableEq, Repr

def Fault.message : Fault → String
  | .badSource => "the script cannot be read"
  | .unknownVariable name => "unknown variable " ++ name
  | .unknownFunction name => "unknown function " ++ name
  | .wrongType what => "wrong type for " ++ what
  | .outOfBounds index => "index " ++ toString index ++ " out of bounds"
  | .divisionByZero => "division by zero"
  | .overflow => "number out of range"
  | .thrown => "thrown by the script"
  | .importRefused => "scripts cannot import"
  | .tooManyOperations => "too many operations"
  | .tooManyCalls => "too many nested calls"
  | .tooLarge => "value too large"

/-- An operator between two values. -/
inductive BinaryOp
  | add
  | subtract
  | multiply
  | divide
  | remainder
  | equal
  | different
  | less
  | atMost
  | greater
  | atLeast
deriving DecidableEq, Repr

/-- An operator on one value. -/
inductive UnaryOp
  | negate
  | not
deriving DecidableEq, Repr

namespace Value

/-! ## Limits -/

/-- The longest text, in bytes. -/
def maxTextSize : Nat := 65536

/-- The most items of a list or fields of a table. -/
def maxCount : Nat := 10000

/-- A value within the limits. -/
def limited (v : Value) : Except Fault Value :=
  match v with
  | .text s => if s.utf8ByteSize ≤ maxTextSize then .ok v else .error .tooLarge
  | .list items => if items.length ≤ maxCount then .ok v else .error .tooLarge
  | .table fields => if fields.length ≤ maxCount then .ok v else .error .tooLarge
  | _ => .ok v

/-- An integer of 64 bits. -/
def checked (n : Int) : Except Fault Value :=
  if Int64.minValue.toInt ≤ n ∧ n ≤ Int64.maxValue.toInt then .ok (.integer n) else .error .overflow

/-! ## Tables -/

/-- Sets a field, keeping the fields in order of their names. -/
def setField (name : String) (v : Value) : List (String × Value) → List (String × Value)
  | [] => [(name, v)]
  | (first, w) :: rest =>
    match compare name first with
    | .lt => (name, v) :: (first, w) :: rest
    | .eq => (name, v) :: rest
    | .gt => (first, w) :: setField name v rest

/-- A table with these fields; a later field of the same name wins. -/
def ofFields (fields : List (String × Value)) : Value :=
  .table (fields.foldl (fun out (name, v) => setField name v out) [])

/-! ## Writing a value out -/

mutual

/-- How a value reads inside a list or table. -/
def shown : Value → String
  | .text s => "\"" ++ s ++ "\""
  | .char c => "'" ++ String.singleton c ++ "'"
  | .unit => "()"
  | .bool b => if b then "true" else "false"
  | .integer n => toString n
  | .list items => "[" ++ String.intercalate ", " (shownItems items) ++ "]"
  | .table fields => "#\x7b" ++ String.intercalate ", " (shownFields fields) ++ "\x7d"
  | .range first beyond => toString first ++ ".." ++ toString beyond

def shownItems : List Value → List String
  | [] => []
  | v :: rest => shown v :: shownItems rest

def shownFields : List (String × Value) → List String
  | [] => []
  | (name, v) :: rest => ("\"" ++ name ++ "\": " ++ shown v) :: shownFields rest

end

/-- The text a value adds to another text. -/
def written : Value → String
  | .text s => s
  | .char c => String.singleton c
  | .unit => ""
  | v => shown v

/-! ## Operators -/

/-- A text or character as a text. -/
def textual? : Value → Option String
  | .text s => some s
  | .char c => some (String.singleton c)
  | _ => none

/-- The order of two values that have one. -/
def order? : Value → Value → Option Ordering
  | .integer a, .integer b => some (compare a b)
  | .bool a, .bool b => some (compare a.toNat b.toNat)
  | a, b =>
    match textual? a, textual? b with
    | some a, some b => some (compare a b)
    | _, _ => none

/-- Whether two values are of one kind. -/
def sameKind : Value → Value → Bool
  | .unit, .unit => true
  | .list _, .list _ => true
  | .table _, .table _ => true
  | .range _ _, .range _ _ => true
  | a, b => (order? a b).isSome

/-- The sum of two values: of numbers, or one after the other. -/
def add : Value → Value → Except Fault Value
  | .integer a, .integer b => checked (a + b)
  | .list a, .list b => limited (.list (a ++ b))
  | .table a, .table b => limited (ofFields (a ++ b))
  | .text a, b => limited (.text (a ++ written b))
  | a, .text b => limited (.text (written a ++ b))
  | .char a, .char b => .ok (.text (String.ofList [a, b]))
  | _, _ => .error (.wrongType "+")

/-- A comparison, by the order where there is one. Values of different kinds are different and
neither is before the other. -/
def compareBy (op : BinaryOp) (a b : Value) : Except Fault Value :=
  match order? a b with
  | some o => .ok <| .bool <|
    match op with
    | .equal => o == .eq
    | .different => o != .eq
    | .less => o == .lt
    | .atMost => o != .gt
    | .greater => o == .gt
    | _ => o != .lt
  | none =>
    match op with
    | .equal => .ok (.bool (a == b))
    | .different => .ok (.bool !(a == b))
    | _ =>
      match a, b with
      | .unit, .unit => .ok (.bool false)
      | _, _ => if sameKind a b then .error (.wrongType "comparison") else .ok (.bool false)

/-- Applies an operator to two values. Division goes toward zero. -/
def binary (op : BinaryOp) (a b : Value) : Except Fault Value :=
  match op, a, b with
  | .add, a, b => add a b
  | .subtract, .integer a, .integer b => checked (a - b)
  | .multiply, .integer a, .integer b => checked (a * b)
  | .divide, .integer a, .integer b =>
    if b = 0 then .error .divisionByZero else checked (a.tdiv b)
  | .remainder, .integer a, .integer b =>
    if b = 0 then .error .divisionByZero
    else if a = Int64.minValue.toInt ∧ b = -1 then .error .overflow
    else checked (a.tmod b)
  | .subtract, _, _ => .error (.wrongType "-")
  | .multiply, _, _ => .error (.wrongType "*")
  | .divide, _, _ => .error (.wrongType "/")
  | .remainder, _, _ => .error (.wrongType "%")
  | op, a, b => compareBy op a b

/-- Applies an operator to one value. -/
def unary : UnaryOp → Value → Except Fault Value
  | .negate, .integer n => checked (-n)
  | .not, .bool b => .ok (.bool !b)
  | .negate, _ => .error (.wrongType "-")
  | .not, _ => .error (.wrongType "!")

/-- The sum kept by `+=`: like `+`, but any value may be added to a list. -/
def accumulate : Value → Value → Except Fault Value
  | .list a, .list b => limited (.list (a ++ b))
  | .list a, b => limited (.list (a ++ [b]))
  | a, b => add a b

/-! ## Parts -/

/-- The position an index means; a negative one counts from the end. -/
def position (count : Nat) (index : Int) : Except Fault Nat :=
  let i := if index < 0 then index + count else index
  if 0 ≤ i ∧ i < count then .ok i.toNat else .error (.outOfBounds index)

/-- How many parts a value has. -/
def count? : Value → Option Nat
  | .text s => some s.length
  | .list items => some items.length
  | .table fields => some fields.length
  | _ => none

/-- A named part: a field, absent ones being the unit value, or a length. -/
def member (name : String) : Value → Except Fault Value
  | .table fields => .ok ((fields.lookup name).getD .unit)
  | v =>
    match name, count? v with
    | "len", some n => .ok (.integer n)
    | _, _ => .error (.wrongType name)

/-- The part at an index: of a list or text by position, of a table by name. -/
def item (v index : Value) : Except Fault Value :=
  match v, index with
  | .list items, .integer i => do
    return items.getD (← position items.length i) .unit
  | .text s, .integer i => do
    return .char (s.toList.getD (← position s.length i) ' ')
  | .table fields, .text name => .ok ((fields.lookup name).getD .unit)
  | _, _ => .error (.wrongType "index")

def replaceMember (name : String) (f : Value → Except Fault Value) : Value → Except Fault Value
  | .table fields => do
    limited (.table (setField name (← f ((fields.lookup name).getD .unit)) fields))
  | _ => .error (.wrongType name)

/-- Changes the part at an index. -/
def replaceItem (v index : Value) (f : Value → Except Fault Value) : Except Fault Value :=
  match v, index with
  | .list items, .integer i => do
    let p ← position items.length i
    return .list (items.set p (← f (items.getD p .unit)))
  | .text s, .integer i => do
    let p ← position s.length i
    match ← f (.char (s.toList.getD p ' ')) with
    | .char c => limited (.text (String.ofList (s.toList.set p c)))
    | _ => .error (.wrongType "character")
  | .table _, .text name => replaceMember name f v
  | _, _ => .error (.wrongType "index")

/-- The first value a loop takes from a source, and the source after it. -/
def next? : Value → Option (Value × Value)
  | .list (v :: rest) => some (v, .list rest)
  | .range first beyond =>
    if first < beyond then some (.integer first, .range (first + 1) beyond) else none
  | _ => none

/-- Whether a loop can run over a value. -/
def isSource : Value → Bool
  | .list _ => true
  | .range _ _ => true
  | _ => false

end Value

end TransparencyLog.Script
