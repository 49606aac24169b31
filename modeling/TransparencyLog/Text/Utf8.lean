import TransparencyLog.Bytes

/-!
# Reading UTF-8

Bytes are read one at a time; `Pending` remembers a character begun and which bytes may continue
it. A byte that cannot continue ends the ill-formed part before it and is read afresh, so every
maximal ill-formed part counts once.

* `Utf8.scan`: the characters, with `none` for each ill-formed part;
* `Utf8.decode?`: the text, if every byte is well-formed;
* `Utf8.lossy`: the text with U+FFFD for each ill-formed part.
-/

namespace TransparencyLog.Utf8

/-- A character begun: its leading bits, how many bytes are due, and the range of the next one. -/
structure Pending where
  bits : Nat
  due : Nat
  low : UInt8 := 0x80
  high : UInt8 := 0xBF

/-- What a byte opens: a whole character, a longer one, or nothing well-formed. -/
inductive Opening
  | whole (c : Char)
  | begun (p : Pending)
  | bad

/-- The first byte of a character fixes its length and the range of the second byte. -/
def opening (b : UInt8) : Opening :=
  let n := b.toNat
  if n < 0x80 then .whole (Char.ofNat n)
  else if n < 0xC2 then .bad
  else if n < 0xE0 then .begun ⟨n % 0x20, 1, 0x80, 0xBF⟩
  else if n = 0xE0 then .begun ⟨0, 2, 0xA0, 0xBF⟩
  else if n = 0xED then .begun ⟨0xD, 2, 0x80, 0x9F⟩
  else if n < 0xF0 then .begun ⟨n % 0x10, 2, 0x80, 0xBF⟩
  else if n = 0xF0 then .begun ⟨0, 3, 0x90, 0xBF⟩
  else if n < 0xF4 then .begun ⟨n % 8, 3, 0x80, 0xBF⟩
  else if n = 0xF4 then .begun ⟨4, 3, 0x80, 0x8F⟩
  else .bad

/-- Reads the bytes after a possible beginning; the result is built in reverse. -/
def scanFrom : Option Pending → Bytes → List (Option Char) → List (Option Char)
  | none, [], out => out
  | some _, [], out => none :: out
  | pending, b :: rest, out =>
    let continued := pending.filter fun p => p.low ≤ b && b ≤ p.high
    match continued with
    | some p =>
      let bits := p.bits * 0x40 + b.toNat % 0x40
      if p.due ≤ 1 then scanFrom none rest (some (Char.ofNat bits) :: out)
      else scanFrom (some ⟨bits, p.due - 1, 0x80, 0xBF⟩) rest out
    | none =>
      let out := if pending.isSome then none :: out else out
      match opening b with
      | .whole c => scanFrom none rest (some c :: out)
      | .begun p => scanFrom (some p) rest out
      | .bad => scanFrom none rest (none :: out)

/-- The characters in order, with `none` for each ill-formed part. -/
def scan (bytes : Bytes) : List (Option Char) := (scanFrom none bytes []).reverse

def decode? (bytes : Bytes) : Option String := (scan bytes).mapM id |>.map String.ofList

/-- The text with the replacement character for each ill-formed part. -/
def lossy (bytes : Bytes) : String :=
  String.ofList ((scan bytes).map fun c => c.getD (Char.ofNat 0xFFFD))

end TransparencyLog.Utf8
