import TransparencyLog.Text.Hex

/-!
# Percent escapes

A byte that may not stand in a URL as it is, is written as a percent sign and two hexadecimal
digits. Reading leaves a percent sign alone that no two digits follow.

* `Percent.encode`, `Percent.decode`;
* **`Percent.decode_encode`**: reading what was written gives the bytes back, whichever bytes were
  kept, unless the percent sign was one of them.
-/

namespace TransparencyLog.Percent

def sign : UInt8 := 0x25

/-- The digit for a number below sixteen, in upper case. -/
def digit (n : Nat) : UInt8 := UInt8.ofNat (if n < 10 then 48 + n else 55 + n)

def escape (b : UInt8) : Bytes := [sign, digit (b.toNat / 16), digit (b.toNat % 16)]

/-- Writes the bytes that are not kept as escapes. -/
def encode (keep : UInt8 → Bool) (bytes : Bytes) : Bytes :=
  bytes.flatMap fun b => if keep b then [b] else escape b

def byte? (high low : UInt8) : Option UInt8 := do
  return UInt8.ofNat (16 * (← Hex.value? high) + (← Hex.value? low))

def decode : Bytes → Bytes
  | b :: high :: low :: rest =>
    match if b = sign then byte? high low else none with
    | some v => v :: decode rest
    | none => b :: decode (high :: low :: rest)
  | short => short

theorem byte?_digit (b : UInt8) :
    byte? (digit (b.toNat / 16)) (digit (b.toNat % 16)) = some b := by
  have h : ∀ n : Fin 256, byte? (digit (n.val / 16)) (digit (n.val % 16)) =
      some (UInt8.ofNat n.val) := by decide +kernel
  simpa using h ⟨b.toNat, b.toNat_lt⟩

theorem decode_escape (b : UInt8) (rest : Bytes) :
    decode (escape b ++ rest) = b :: decode rest := by
  simp [escape, decode, byte?_digit]

theorem decode_cons_of_ne {b : UInt8} (h : b ≠ sign) (rest : Bytes) :
    decode (b :: rest) = b :: decode rest := by
  match rest with
  | [] => rfl
  | [_] => rfl
  | _ :: _ :: _ => simp [decode, h]

/-- Reading what was written gives the bytes back. -/
theorem decode_encode (keep : UInt8 → Bool) (h : keep sign = false) (bytes : Bytes) :
    decode (encode keep bytes) = bytes := by
  induction bytes with
  | nil => rfl
  | cons b rest ih =>
    have ih : decode (rest.flatMap fun b => if keep b then [b] else escape b) = rest := ih
    by_cases hb : keep b
    · have hne : b ≠ sign := fun e => by simp [e, h] at hb
      simp [encode, hb, decode_cons_of_ne hne, ih]
    · simp [encode, hb, decode_escape, ih]

end TransparencyLog.Percent
