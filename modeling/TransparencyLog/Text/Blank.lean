/-!
# Blank characters

The characters of Unicode's `White_Space` property, and trimming by them. Keys, time stamps and
signatures are read from texts that may carry such characters at either end.

* `Blank.isBlank`, `Blank.trim`.
-/

namespace TransparencyLog.Blank

/-- Has the property `White_Space`. -/
def isBlank (c : Char) : Bool :=
  let n := c.toNat
  (9 ≤ n && n ≤ 13) || n == 0x20 || n == 0x85 || n == 0xA0 || n == 0x1680 ||
    (0x2000 ≤ n && n ≤ 0x200A) || n == 0x2028 || n == 0x2029 || n == 0x202F || n == 0x205F ||
    n == 0x3000

/-- The text without the blanks at its ends. -/
def trim (text : String) : String :=
  String.ofList ((text.toList.dropWhile isBlank).reverse.dropWhile isBlank).reverse

end TransparencyLog.Blank
