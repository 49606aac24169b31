import TransparencyLog.Text.Blank

/-!
# Tokens of a script

The words, numbers, texts and marks that a script's source consists of. Comments and blanks
separate tokens; block comments nest. Words kept for other languages are refused, and so is every
word that would let a script run text as a script.

* `Script.Token`, `Script.Token.scan?`.
-/

namespace TransparencyLog.Script

/-- A token. -/
inductive Token
  | word (name : String)
  | integer (n : Nat)
  | text (s : String)
  | char (c : Char)
  | mark (written : String)
deriving DecidableEq, Repr

namespace Token

/-- Words that no script may use. -/
def refusedWords : List String :=
  ["eval", "var", "static", "shared", "is", "goto", "match", "case", "public", "protected", "new",
    "use", "with", "module", "package", "super", "thread", "spawn", "go", "await", "async", "sync",
    "yield", "default", "void", "null", "nil"]

/-- Marks of more than one character, longer ones before their beginnings. -/
def longMarks : List (List Char) :=
  ["..=", "==", "!=", "<=", ">=", "&&", "||", "+=", "-=", "*=", "/=", "%=", "..", "#\x7b"].map
    String.toList

/-- Marks that look like others but have no meaning. -/
def refusedMarks : List (List Char) :=
  ["===", "!==", "++", "--", "->", "<-", ":=", "...", "**"].map String.toList

/-- Marks of one character. -/
def shortMarks : List Char := "\x7b\x7d()[],;:.+-*/%<>=!".toList

/-- The largest integer a script can write. -/
def maxInteger : Nat := 0x7FFFFFFFFFFFFFFF

def isWordStart (c : Char) : Bool := c.isAlpha || c == '_'

def isWordPart (c : Char) : Bool := c.isAlphanum || c == '_'

/-- The rest of a line's text after its end. -/
def skipLine : List Char → List Char
  | [] => []
  | '\n' :: rest => rest
  | _ :: rest => skipLine rest

/-- What follows a block comment, `depth` of which are open. -/
def skipBlock : Nat → List Char → List Char
  | depth, '/' :: '*' :: rest => skipBlock (depth + 1) rest
  | depth, '*' :: '/' :: rest => if depth ≤ 1 then rest else skipBlock (depth - 1) rest
  | depth, _ :: rest => skipBlock depth rest
  | _, [] => []

def hexValue? (c : Char) : Option Nat :=
  if '0' ≤ c ∧ c ≤ '9' then some (c.toNat - 48)
  else if 'a' ≤ c ∧ c ≤ 'f' then some (c.toNat - 87)
  else if 'A' ≤ c ∧ c ≤ 'F' then some (c.toNat - 55)
  else none

/-- The character with a number written in hexadecimal digits. -/
def charOfHex? (digits : List Char) : Option Char := do
  let values ← digits.mapM hexValue?
  let n := values.foldl (fun n v => 16 * n + v) 0
  if h : n.isValidChar then some (Char.ofNatAux n h) else none

/-- The character an escape stands for, and what follows it. -/
def escape? : List Char → Option (Char × List Char)
  | 'n' :: rest => some ('\n', rest)
  | 't' :: rest => some ('\t', rest)
  | 'r' :: rest => some ('\r', rest)
  | '\\' :: rest => some ('\\', rest)
  | '"' :: rest => some ('"', rest)
  | '\'' :: rest => some ('\'', rest)
  | 'x' :: rest => do
    guard (2 ≤ rest.length)
    return (← charOfHex? (rest.take 2), rest.drop 2)
  | 'u' :: rest => do
    guard (4 ≤ rest.length)
    return (← charOfHex? (rest.take 4), rest.drop 4)
  | 'U' :: rest => do
    guard (8 ≤ rest.length)
    return (← charOfHex? (rest.take 8), rest.drop 8)
  | _ => none

/-- The rest of a text after its opening quote, with what follows it. A doubled quote stands for
one. The first argument bounds the steps. -/
def readText? : Nat → List Char → List Char → Option (String × List Char)
  | fuel + 1, '"' :: '"' :: rest, out => readText? fuel rest ('"' :: out)
  | _, '"' :: rest, out => some (String.ofList out.reverse, rest)
  | fuel + 1, '\\' :: rest, out => do
    let (c, rest) ← escape? rest
    readText? fuel rest (c :: out)
  | _, '\n' :: _, _ => none
  | fuel + 1, c :: rest, out => readText? fuel rest (c :: out)
  | _, _, _ => none

/-- A character after its opening apostrophe. -/
def readChar? : List Char → Option (Token × List Char)
  | '\\' :: rest =>
    match escape? rest with
    | some (c, '\'' :: rest) => some (.char c, rest)
    | _ => none
  | '\'' :: _ => none
  | c :: '\'' :: rest => some (.char c, rest)
  | _ => none

/-- An integer; underscores between its digits are passed over. -/
def readInteger? (source : List Char) : Option (Token × List Char) :=
  let isPart (c : Char) : Bool := c.isDigit || c == '_'
  let digits := (source.takeWhile isPart).filter Char.isDigit
  let rest := source.dropWhile isPart
  let n := digits.foldl (fun n c => 10 * n + (c.toNat - 48)) 0
  match rest with
  | '.' :: c :: _ => if c.isDigit then none else some (.integer n, rest)
  | c :: _ => if isWordStart c then none else some (.integer n, rest)
  | [] => some (.integer n, rest)

def readMark? (source : List Char) : Option (Token × List Char) :=
  if refusedMarks.any fun m => m.isPrefixOf source then none
  else match longMarks.find? fun m => m.isPrefixOf source with
    | some m => some (.mark (String.ofList m), source.drop m.length)
    | none =>
      match source with
      | c :: rest => if shortMarks.contains c then some (.mark (String.singleton c), rest) else none
      | [] => none

/-- A word that may be used: after any underscores it begins with a letter. -/
def isName (name : List Char) : Bool :=
  match name.dropWhile (· == '_') with
  | c :: _ => c.isAlpha
  | [] => false

def readWord? (source : List Char) : Option (Token × List Char) :=
  let name := source.takeWhile isWordPart
  if isName name && !refusedWords.contains (String.ofList name) then
    some (.word (String.ofList name), source.dropWhile isWordPart)
  else none

/-- The token at the front, after which the text goes on. -/
def read? (source : List Char) : Option (Token × List Char) :=
  match source with
  | '"' :: rest => (readText? rest.length rest []).map fun (s, rest) => (.text s, rest)
  | '\'' :: rest => readChar? rest
  | c :: _ =>
    if c.isDigit then (readInteger? source).filter fun
      | (.integer n, _) => n ≤ maxInteger
      | _ => true
    else if isWordStart c then readWord? source
    else readMark? source
  | [] => none

/-- The tokens of a source; the first argument bounds their number. -/
def scanFrom? : Nat → List Char → List Token → Option (List Token)
  | _, [], out => some out.reverse
  | 0, _, _ => none
  | fuel + 1, '/' :: '/' :: rest, out => scanFrom? fuel (skipLine rest) out
  | fuel + 1, '/' :: '*' :: rest, out => scanFrom? fuel (skipBlock 1 rest) out
  | fuel + 1, c :: rest, out =>
    if Blank.isBlank c then scanFrom? fuel rest out
    else match read? (c :: rest) with
      | some (t, rest) => scanFrom? fuel rest (t :: out)
      | none => none

def scan? (source : String) : Option (List Token) :=
  scanFrom? source.toList.length source.toList []

end Token

end TransparencyLog.Script
