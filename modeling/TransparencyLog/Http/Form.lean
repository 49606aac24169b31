import TransparencyLog.Http.Percent
import TransparencyLog.Text.Decimal
import TransparencyLog.Text.Utf8

/-!
# Forms

The query of a URL is a list of named values: pairs joined by `&`, a name joined to its value by
`=`, blanks written as `+`, other bytes as percent escapes. A value that is asked for by name must
be given exactly once.

* `Bytes.cut`, `Bytes.pieces`: taking a text apart at a mark;
* `Form`, `Form.parse`, `Form.write`;
* `Form.text?`, `Form.number?`: the value of a name.
-/

namespace TransparencyLog

/-- What stands before the first mark, and what stands after it if there is one. -/
def Bytes.cut (mark : UInt8) (bytes : Bytes) : Bytes × Option Bytes :=
  (bytes.takeWhile (· != mark), (bytes.dropWhile (· != mark)).tail?)

/-- The pieces between marks, one more than there are marks. -/
def Bytes.pieces (mark : UInt8) : Bytes → List Bytes
  | [] => [[]]
  | b :: rest =>
    if b = mark then [] :: pieces mark rest
    else match pieces mark rest with
      | [] => [[b]]
      | first :: others => (b :: first) :: others

/-- Named values in order. -/
abbrev Form := List (String × String)

namespace Form

/-- Reads a name or a value; bytes that are no text are replaced. -/
def readPart (bytes : Bytes) : String :=
  Utf8.lossy (Percent.decode (bytes.map fun b => if b = 0x2B then 0x20 else b))

/-- Reads one pair; without a `=` the value is empty. -/
def readPair (bytes : Bytes) : String × String :=
  let (name, value) := bytes.cut 0x3D
  (readPart name, readPart (value.getD []))

/-- Reads a form; empty pieces are passed over. -/
def parse (query : Bytes) : Form :=
  ((query.pieces 0x26).filter fun piece => !piece.isEmpty).map readPair

/-- Whether a byte stands for itself in a form. -/
def plain (b : UInt8) : Bool :=
  (0x30 ≤ b && b ≤ 0x39) || (0x41 ≤ b && b ≤ 0x5A) || (0x61 ≤ b && b ≤ 0x7A) ||
    b == 0x2A || b == 0x2D || b == 0x2E || b == 0x5F

def writePart (text : String) : Bytes :=
  (Bytes.ofText text).flatMap fun b =>
    if b = 0x20 then [0x2B] else Percent.encode plain [b]

def writePair (pair : String × String) : Bytes := writePart pair.1 ++ 0x3D :: writePart pair.2

def write (form : Form) : Bytes := [0x26].intercalate (form.map writePair)

/-- The value of a name that is given exactly once. -/
def text? (form : Form) (name : String) : Option String :=
  match form.filter (·.1 == name) with
  | [(_, value)] => some value
  | _ => none

/-- The number of a name that is given exactly once. -/
def number? (form : Form) (name : String) : Option UInt64 :=
  (form.text? name).bind Decimal.uint64?

end Form

end TransparencyLog
