import TransparencyLog.Data.Basic
import TransparencyLog.Text.Utf8

/-!
# JSON

Reading is strict: no comments, no trailing commas, no leading zeros, nothing after the value but
blanks. It goes in two passes, each one step per item: bytes become tokens, and tokens drive a
machine whose stack holds the lists and tables still open.

* `Json.tokens?`, `Json.parse?`;
* `Json.write`: the compact text;
* `Json.pretty`: one item per line, two blanks per level.
-/

namespace TransparencyLog.Json

/-! ## Tokens -/

/-- The parts a text consists of. -/
inductive Token
  | openList
  | closeList
  | openTable
  | closeTable
  | comma
  | colon
  | scalar (value : Data)

/-- A string being read: its bytes in reverse, whether they are sound so far, and the first half of
a surrogate pair that waits for its second. -/
structure Partial where
  reversed : Bytes := []
  sound : Bool := true
  half : Option Nat := none

namespace Partial

/-- A first half that found no second makes the string unsound. -/
def settle (s : Partial) : Partial :=
  if s.half.isSome then { s with sound := false, half := none } else s

def push (s : Partial) (b : UInt8) : Partial :=
  let s := s.settle
  { s with reversed := b :: s.reversed }

def pushChar (s : Partial) (c : Char) : Partial :=
  { s with reversed := (String.utf8EncodeChar c).reverse ++ s.reversed }

/-- One more UTF-16 unit, given by number. -/
def pushUnit (s : Partial) (unit : Nat) : Partial :=
  let isLow := 0xDC00 ≤ unit && unit < 0xE000
  let isHigh := 0xD800 ≤ unit && unit < 0xDC00
  match s.half, isLow with
  | some high, true =>
    { s with half := none }.pushChar
      (Char.ofNat (0x10000 + (high - 0xD800) * 0x400 + (unit - 0xDC00)))
  | _, true => { s.settle with sound := false }
  | _, false =>
    let s := s.settle
    if isHigh then { s with half := some unit } else s.pushChar (Char.ofNat unit)

def finish (s : Partial) : Data :=
  let s := s.settle
  .string (if s.sound then Utf8.decode? s.reversed.reverse else none)

end Partial

/-- What the reader of tokens is in the middle of. -/
inductive Pending
  | nothing
  | word (reversed : Bytes)
  | string (s : Partial)
  | escape (s : Partial)
  | unit (s : Partial) (due value : Nat)

/-- The digits at the front of a list, and the rest. -/
def spanDigits (bytes : Bytes) : Bytes × Bytes :=
  let isDigit (b : UInt8) : Bool := 48 ≤ b && b ≤ 57
  (bytes.takeWhile isDigit, bytes.dropWhile isDigit)

/-- Whether bytes are a fraction and an exponent, either of which may be absent. -/
def isFractionExponent (bytes : Bytes) : Bool :=
  let afterFraction : Option Bytes := match bytes with
    | 46 :: rest =>
      let (digits, rest) := spanDigits rest
      if digits.isEmpty then none else some rest
    | rest => some rest
  match afterFraction with
  | none => false
  | some [] => true
  | some (e :: rest) =>
    let rest := match rest with
      | 43 :: rest => rest
      | 45 :: rest => rest
      | rest => rest
    let (digits, rest) := spanDigits rest
    (e == 101 || e == 69) && !digits.isEmpty && rest.isEmpty

def digitsNumber (digits : Bytes) : Nat := digits.foldl (fun n b => 10 * n + (b.toNat - 48)) 0

/-- The value of a bare word: a literal or a number. -/
def wordValue? (word : Bytes) : Option Data :=
  if word = Bytes.ofText "null" then some .null
  else if word = Bytes.ofText "true" then some (.bool true)
  else if word = Bytes.ofText "false" then some (.bool false)
  else
    let (negative, unsigned) := match word with
      | 45 :: rest => (true, rest)
      | rest => (false, rest)
    let (digits, rest) := spanDigits unsigned
    if digits.isEmpty || (digits.length > 1 && digits.head? == some 48) then none
    else if rest.isEmpty then
      let n := digitsNumber digits
      if negative then
        if n = 0 then some (.other "-0") else some (.integer (-n))
      else some (.integer n)
    else if isFractionExponent rest then (Utf8.decode? word).map .other
    else none

/-- The token of a byte that stands for itself. -/
def punctuation? (b : UInt8) : Option Token :=
  match b.toNat with
  | 91 => some .openList
  | 93 => some .closeList
  | 123 => some .openTable
  | 125 => some .closeTable
  | 44 => some .comma
  | 58 => some .colon
  | _ => none

/-- Whether a byte is a blank between tokens. -/
def isBlank (b : UInt8) : Bool := b == 32 || b == 10 || b == 13 || b == 9

/-- Whether a byte may be part of a literal or a number. -/
def isWordByte (b : UInt8) : Bool :=
  (97 ≤ b && b ≤ 122) || (65 ≤ b && b ≤ 90) || (48 ≤ b && b ≤ 57) || b == 43 || b == 45 || b == 46

def hexValue? (b : UInt8) : Option Nat :=
  if 48 ≤ b ∧ b ≤ 57 then some (b.toNat - 48)
  else if 97 ≤ b ∧ b ≤ 102 then some (b.toNat - 87)
  else if 65 ≤ b ∧ b ≤ 70 then some (b.toNat - 55)
  else none

/-- A byte between tokens: the tokens so far, in reverse, and what it begins. -/
def startToken (b : UInt8) (out : List Token) : Option (Pending × List Token) :=
  if isBlank b then some (.nothing, out)
  else if b = 34 then some (.string {}, out)
  else if isWordByte b then some (.word [b], out)
  else (punctuation? b).map fun t => (.nothing, t :: out)

/-- The byte that a simple escape stands for. -/
def escaped? (b : UInt8) : Option UInt8 :=
  match b.toNat with
  | 34 => some 34
  | 92 => some 92
  | 47 => some 47
  | 98 => some 8
  | 102 => some 12
  | 110 => some 10
  | 114 => some 13
  | 116 => some 9
  | _ => none

def scanByte (b : UInt8) : Pending → List Token → Option (Pending × List Token)
  | .nothing, out => startToken b out
  | .word reversed, out =>
    if isWordByte b then some (.word (b :: reversed), out)
    else (wordValue? reversed.reverse).bind fun d => startToken b (.scalar d :: out)
  | .string s, out =>
    if b = 34 then some (.nothing, .scalar s.finish :: out)
    else if b = 92 then some (.escape s, out)
    else if b < 32 then none
    else some (.string (s.push b), out)
  | .escape s, out =>
    if b = 117 then some (.unit s 4 0, out)
    else (escaped? b).map fun c => (.string (s.push c), out)
  | .unit s due value, out =>
    (hexValue? b).map fun v =>
      let value := 16 * value + v
      if due ≤ 1 then (.string (s.pushUnit value), out) else (.unit s (due - 1) value, out)

/-- The tokens of a text from some state on. -/
def scan : Bytes → Pending → List Token → Option (List Token)
  | [], .nothing, out => some out.reverse
  | [], .word reversed, out =>
    (wordValue? reversed.reverse).map fun d => (.scalar d :: out).reverse
  | [], _, _ => none
  | b :: rest, pending, out =>
    match scanByte b pending out with
    | none => none
    | some (pending, out) => scan rest pending out

def tokens? (bytes : Bytes) : Option (List Token) := scan bytes .nothing []

/-! ## Values -/

/-- A list or table still open, with its parts in reverse. -/
inductive Frame
  | list (items : List Data)
  | table (fields : List (Option String × Data)) (name : Option String)

/-- What may come next. -/
inductive Expect
  | value
  | valueOrClose
  | name
  | nameOrClose
  | colon
  | separator
  | nothing

/-- The state of the reader of values: what is open, what may come, and the value once complete. -/
structure Machine where
  stack : List Frame := []
  expect : Expect := .value
  result : Data := .null

namespace Machine

/-- A value is complete: it goes into the innermost open list or table. -/
def complete (d : Data) : List Frame → Machine
  | [] => ⟨[], .nothing, d⟩
  | .list items :: rest => ⟨.list (d :: items) :: rest, .separator, .null⟩
  | .table fields name :: rest => ⟨.table ((name, d) :: fields) none :: rest, .separator, .null⟩

def begin (m : Machine) : Token → Option Machine
  | .openList => some ⟨.list [] :: m.stack, .valueOrClose, .null⟩
  | .openTable => some ⟨.table [] none :: m.stack, .nameOrClose, .null⟩
  | .scalar d => some (complete d m.stack)
  | _ => none

/-- The innermost list or table ends. -/
def close (m : Machine) : Token → Option Machine
  | .closeList => match m.stack with
    | .list items :: rest => some (complete (.list items.reverse) rest)
    | _ => none
  | .closeTable => match m.stack with
    | .table fields _ :: rest => some (complete (.table fields.reverse) rest)
    | _ => none
  | _ => none

def setName (m : Machine) : Token → Option Machine
  | .scalar (.string name) => match m.stack with
    | .table fields _ :: rest => some ⟨.table fields name :: rest, .colon, .null⟩
    | _ => none
  | _ => none

def step (m : Machine) (t : Token) : Option Machine :=
  match m.expect, t with
  | .value, t => m.begin t
  | .valueOrClose, .closeList => m.close t
  | .valueOrClose, t => m.begin t
  | .name, t => m.setName t
  | .nameOrClose, .closeTable => m.close t
  | .nameOrClose, t => m.setName t
  | .colon, .colon => some { m with expect := .value }
  | .separator, .comma => match m.stack with
    | .list _ :: _ => some { m with expect := .value }
    | .table _ _ :: _ => some { m with expect := .name }
    | [] => none
  | .separator, t => m.close t
  | _, _ => none

end Machine

def run : List Token → Machine → Option Machine
  | [], m => some m
  | t :: rest, m => (m.step t).bind (run rest)

/-- The value a text stands for. -/
def parse? (bytes : Bytes) : Option Data := do
  let m ← run (← tokens? bytes) {}
  match m.expect with
  | .nothing => some m.result
  | _ => none

/-! ## Writing -/

def hexPair (n : Nat) : List Char :=
  let digit (n : Nat) : Char := if n < 10 then Char.ofNat (48 + n) else Char.ofNat (87 + n)
  [digit (n / 16), digit (n % 16)]

def escapeChar (c : Char) : List Char :=
  match c.toNat with
  | 34 => ['\\', '"']
  | 92 => ['\\', '\\']
  | 8 => ['\\', 'b']
  | 9 => ['\\', 't']
  | 10 => ['\\', 'n']
  | 12 => ['\\', 'f']
  | 13 => ['\\', 'r']
  | n => if n < 32 then ['\\', 'u', '0', '0'] ++ hexPair n else [c]

def quote (s : String) : List Char := '"' :: (s.toList.flatMap escapeChar ++ ['"'])

/-- A value without parts. -/
def scalarChars : Data → List Char
  | .bool true => "true".toList
  | .bool false => "false".toList
  | .integer n => (toString n).toList
  | .other written => written.toList
  | .string (some s) => quote s
  | _ => "null".toList

mutual

def chars : Data → List Char
  | .list items => '[' :: itemChars items
  | .table fields => '\x7b' :: fieldChars fields
  | d => scalarChars d

/-- The items of a list and its end. -/
def itemChars : List Data → List Char
  | [] => [']']
  | [d] => chars d ++ [']']
  | d :: rest => chars d ++ ',' :: itemChars rest

/-- The fields of a table and its end. -/
def fieldChars : List (Option String × Data) → List Char
  | [] => ['\x7d']
  | [(name, d)] => quote (name.getD "") ++ ':' :: (chars d ++ ['\x7d'])
  | (name, d) :: rest => quote (name.getD "") ++ ':' :: (chars d ++ ',' :: fieldChars rest)

end

def write (d : Data) : String := String.ofList (chars d)

/-- The start of a line at some depth. -/
def newline (depth : Nat) : List Char := '\n' :: List.replicate (2 * depth) ' '

mutual

/-- The text of a value over several lines. -/
def prettyChars (depth : Nat) : Data → List Char
  | .list [] => ['[', ']']
  | .list items => '[' :: (prettyItems (depth + 1) items ++ newline depth ++ [']'])
  | .table [] => ['\x7b', '\x7d']
  | .table fields => '\x7b' :: (prettyFields (depth + 1) fields ++ newline depth ++ ['\x7d'])
  | d => scalarChars d

/-- Items on lines of their own. -/
def prettyItems (depth : Nat) : List Data → List Char
  | [] => []
  | [d] => newline depth ++ prettyChars depth d
  | d :: rest => newline depth ++ prettyChars depth d ++ ',' :: prettyItems depth rest

/-- Fields on lines of their own. -/
def prettyFields (depth : Nat) : List (Option String × Data) → List Char
  | [] => []
  | [(name, d)] => newline depth ++ quote (name.getD "") ++ ':' :: ' ' :: prettyChars depth d
  | (name, d) :: rest =>
    newline depth ++ quote (name.getD "") ++ ':' :: ' ' ::
      (prettyChars depth d ++ ',' :: prettyFields depth rest)

end

/-- The text of a value, one item per line, two blanks per level. -/
def pretty (d : Data) : String := String.ofList (prettyChars 0 d)

end TransparencyLog.Json
