import TransparencyLog.Bytes
import TransparencyLog.Text.Quoted

/-!
# Hexadecimal text

Two digits per byte, the high half first. Writing uses lower case; reading takes either case and
looks at the text's UTF-8 bytes. An odd length is reported before any bad digit, and of several bad
digits the first one is.

* `Hex.encode`, `Hex.decode`;
* `Hex.Fault`: why a text is not the hexadecimal form of bytes.
-/

namespace TransparencyLog.Hex

/-- Why a text is not the hexadecimal form of a byte string. -/
inductive Fault
  | oddLength
  | badDigit (byte : UInt8) (position : Nat)
deriving DecidableEq, Repr

/-- The wording of a fault: the bad byte is shown as the character of that number. -/
def Fault.message : Fault → String
  | .oddLength => "Odd number of digits"
  | .badDigit byte position =>
    "Invalid character " ++ Quoted.character (Char.ofNat byte.toNat) ++ " at position " ++
      toString position

/-- The digit for a number below sixteen. -/
def digit (n : Nat) : Char := if n < 10 then Char.ofNat (48 + n) else Char.ofNat (87 + n)

/-- The number a digit stands for, in either case. -/
def value? (b : UInt8) : Option Nat :=
  let n := b.toNat
  if 48 ≤ n ∧ n ≤ 57 then some (n - 48)
  else if 97 ≤ n ∧ n ≤ 102 then some (n - 87)
  else if 65 ≤ n ∧ n ≤ 70 then some (n - 55)
  else none

/-- The two digits of each byte. -/
def digits (bytes : Bytes) : List Char :=
  bytes.flatMap fun b => [digit (b.toNat / 16), digit (b.toNat % 16)]

/-- The hexadecimal text of a byte string, in lower case. -/
def encode (bytes : Bytes) : String := String.ofList (digits bytes)

/-- Joins digit values two by two. -/
def pairUp : List Nat → Bytes
  | high :: low :: rest => UInt8.ofNat (16 * high + low) :: pairUp rest
  | _ => []

/-- The value of the digit at a position. -/
def valueAt (b : UInt8) (position : Nat) : Except Fault Nat :=
  match value? b with
  | some v => .ok v
  | none => .error (.badDigit b position)

/-- The values of the digits, or the first byte that is none. -/
def values (ascii : Bytes) : Except Fault (List Nat) :=
  ascii.zipIdx.mapM fun digit => valueAt digit.1 digit.2

/-- The byte string a hexadecimal text stands for. -/
def decode (text : String) : Except Fault Bytes :=
  let ascii := Bytes.ofText text
  if ascii.length % 2 = 1 then .error .oddLength
  else (values ascii).map pairUp

end TransparencyLog.Hex
