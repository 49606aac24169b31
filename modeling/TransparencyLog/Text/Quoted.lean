/-!
# Quoted characters

How a single character is shown inside an error text: between apostrophes, with the escapes of a
source literal. Control characters and blanks other than the plain space are shown by number.

* `Quoted.character`.
-/

namespace TransparencyLog.Quoted

/-- The digits of `n` in base sixteen, without leading zeros. -/
def hexNumber (n : Nat) : String := String.ofList (Nat.toDigits 16 n)

/-- Characters of the first 256 that have no picture of their own: controls, the no-break space and
the soft hyphen. -/
def isHidden (c : Char) : Bool :=
  let n := c.toNat
  n < 32 || (127 ≤ n && n < 161) || n == 173

/-- A character of the first 256 as it is shown between apostrophes. -/
def character (c : Char) : String :=
  let body :=
    match c.toNat with
    | 0 => "\\0"
    | 9 => "\\t"
    | 10 => "\\n"
    | 13 => "\\r"
    | 39 => "\\'"
    | 92 => "\\\\"
    | n =>
      if isHidden c then "\\u\x7b" ++ hexNumber n ++ "\x7d" else String.singleton c
  "'" ++ body ++ "'"

end TransparencyLog.Quoted
