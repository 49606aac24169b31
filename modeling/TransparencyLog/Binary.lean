import TransparencyLog.Digest
import TransparencyLog.Error

/-!
# The binary format

Heads, map entries and store files share one layout: 64-bit numbers least significant byte first,
digests bare, byte strings and texts behind their length, maps as a count and the pairs in order.
Reading takes a value from the front and tolerates bytes after it.

* `Binary.word`, `Binary.block`: writing;
* `Binary.Reader`: reading from the front;
* **`Binary.readWord_word`**, **`Binary.readBlock_block`**: what was written reads back.
-/

namespace TransparencyLog.Binary

/-! ## Writing -/

def word (n : UInt64) : Bytes := Bytes.littleEndian 8 n.toNat

/-- A byte string behind its length. -/
def block (bytes : Bytes) : Bytes := Bytes.littleEndian 8 bytes.length ++ bytes

/-- A text behind the length of its UTF-8 form. -/
def text (s : String) : Bytes := block (Bytes.ofText s)

/-! ## Reading -/

/-- Takes a value from the front and gives the bytes behind it; fails when they are too few. -/
abbrev Reader (α : Type) := StateT Bytes Option α

/-- The next `count` bytes. -/
def take (count : Nat) : Reader Bytes := fun input =>
  let front := input.take count
  if front.length < count then none else some (front, input.drop count)

def readNumber : Reader Nat := do return Bytes.number (← take 8)

/-- A 64-bit number as a word. -/
def readWord : Reader UInt64 := do return UInt64.ofNat (← readNumber)

/-- A byte string behind its length. -/
def readBlock : Reader Bytes := do take (← readNumber)

/-- A text behind its length. -/
def readText : Reader String := do
  match Utf8.decode? (← readBlock) with
  | some s => pure s
  | none => failure

def readDigest : Reader Digest := do
  match Digest.ofBytes? (← take 32) with
  | some d => pure d
  | none => failure

/-- The value at the front, whatever follows. -/
def decode {α : Type} (reader : Reader α) (bytes : Bytes) : Except LogError α :=
  match reader bytes with
  | some (value, _) => .ok value
  | none => .error .serialization

theorem take_append (bytes rest : Bytes) :
    take bytes.length (bytes ++ rest) = some (bytes, rest) := by
  simp [take]

theorem readNumber_eq (input : Bytes) :
    readNumber input = (take 8 input).bind fun read => some (Bytes.number read.1, read.2) := rfl

theorem readWord_eq (input : Bytes) :
    readWord input = (readNumber input).bind fun read => some (UInt64.ofNat read.1, read.2) := rfl

theorem readBlock_eq (input : Bytes) :
    readBlock input = (readNumber input).bind fun read => take read.1 read.2 := rfl

theorem readNumber_littleEndian {n : Nat} (h : n < UInt64.size) (rest : Bytes) :
    readNumber (Bytes.littleEndian 8 n ++ rest) = some (n, rest) := by
  have taken := take_append (Bytes.littleEndian 8 n) rest
  rw [Bytes.length_littleEndian] at taken
  have value : Bytes.number (Bytes.littleEndian 8 n) = n := by
    rw [Bytes.number_littleEndian]
    exact Nat.mod_eq_of_lt h
  rw [readNumber_eq, taken, Option.bind_some, value]

theorem readWord_word (n : UInt64) (rest : Bytes) : readWord (word n ++ rest) = some (n, rest) := by
  rw [readWord_eq, word, readNumber_littleEndian n.toNat_lt, Option.bind_some, UInt64.ofNat_toNat]

theorem readBlock_block {bytes : Bytes} (h : bytes.length < UInt64.size) (rest : Bytes) :
    readBlock (block bytes ++ rest) = some (bytes, rest) := by
  rw [readBlock_eq, block, List.append_assoc, readNumber_littleEndian h, Option.bind_some,
    take_append]

end TransparencyLog.Binary
