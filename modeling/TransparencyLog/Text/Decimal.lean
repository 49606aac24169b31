/-!
# Decimal numbers in text

Sizes, indices and time stamps travel as decimal texts. A sign may stand in front; leading zeros
are harmless; a number outside the type's range is refused.

* `Decimal.unsigned? bound`: an optional `+`, then digits, below `bound`;
* `Decimal.integer?`: an optional sign, then digits;
* `Decimal.int64?`: the same, in the range of a signed 64-bit number.
-/

namespace TransparencyLog.Decimal

def digit? (c : Char) : Option Nat :=
  if '0' ≤ c ∧ c ≤ '9' then some (c.toNat - 48) else none

/-- The number written by one or more digits. -/
def natural? (digits : List Char) : Option Nat :=
  if digits.isEmpty then none
  else digits.foldl (fun n c => n.bind fun n => (digit? c).map fun d => 10 * n + d) (some 0)

/-- A number below `bound`, possibly with a plus sign. -/
def unsigned? (bound : Nat) (text : String) : Option Nat :=
  let digits := match text.toList with
    | '+' :: rest => rest
    | digits => digits
  (natural? digits).filter (· < bound)

def uint64? (text : String) : Option UInt64 := (unsigned? UInt64.size text).map UInt64.ofNat

/-- A number, possibly with a sign. -/
def integer? (text : String) : Option Int :=
  match text.toList with
  | '-' :: rest => (natural? rest).map fun n => -Int.ofNat n
  | '+' :: rest => (natural? rest).map Int.ofNat
  | digits => (natural? digits).map Int.ofNat

def int64? (text : String) : Option Int64 :=
  ((integer? text).filter fun n =>
    Int64.minValue.toInt ≤ n && n ≤ Int64.maxValue.toInt).map Int64.ofInt

end TransparencyLog.Decimal
