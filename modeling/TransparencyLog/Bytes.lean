/-!
# Byte strings

Everything the log hashes, stores or sends is a list of bytes. Fixed-width numbers are written
least significant byte first unless a format says otherwise.

* `Bytes.ofText`: the UTF-8 bytes of a text;
* `Bytes.littleEndian`, `Bytes.bigEndian`: the low bytes of a number;
* `Bytes.number`: the number a little-endian word stands for;
* **`Bytes.number_littleEndian`**: reading a word gives the number back, up to the word's width.
-/

namespace TransparencyLog

/-- A byte string. -/
abbrev Bytes := List UInt8

namespace Bytes

/-- The UTF-8 bytes of a text. -/
def ofText (text : String) : Bytes := text.toList.flatMap String.utf8EncodeChar

/-- The `width` low bytes of `n`, least significant first. -/
def littleEndian : Nat → Nat → Bytes
  | 0, _ => []
  | width + 1, n => UInt8.ofNat n :: littleEndian width (n / 256)

/-- The `width` low bytes of `n`, most significant first. -/
def bigEndian (width n : Nat) : Bytes := (littleEndian width n).reverse

/-- The number written by a little-endian word. -/
def number : Bytes → Nat
  | [] => 0
  | b :: rest => b.toNat + 256 * number rest

@[simp] theorem length_littleEndian (width n : Nat) : (littleEndian width n).length = width := by
  induction width generalizing n with
  | zero => rfl
  | succ width ih => simp [littleEndian, ih]

@[simp] theorem length_bigEndian (width n : Nat) : (bigEndian width n).length = width := by
  simp [bigEndian]

/-- Reading a word gives back the number, reduced to the word's width. -/
theorem number_littleEndian (width n : Nat) : number (littleEndian width n) = n % Nat.pow 256 width := by
  induction width generalizing n with
  | zero => exact (Nat.mod_one n).symm
  | succ width ih =>
    have h : Nat.pow 256 (width + 1) = 256 * Nat.pow 256 width := Nat.mul_comm _ _
    simp only [littleEndian, number, ih, UInt8.toNat_ofNat', h, Nat.mod_mul]

theorem number_lt (word : Bytes) : number word < Nat.pow 256 word.length := by
  induction word with
  | nil => exact Nat.one_pos
  | cons b rest ih =>
    have hb := b.toNat_lt
    have h : Nat.pow 256 (rest.length + 1) = 256 * Nat.pow 256 rest.length := Nat.mul_comm _ _
    simp only [number, List.length_cons, h]
    omega

end Bytes

end TransparencyLog
