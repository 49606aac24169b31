import TransparencyLog.Bytes

/-!
# SHA-256

The hash of FIPS 180-4 on 32-bit words: the message is padded to blocks of 64 bytes, each block is
expanded to 64 words and mixed into eight words of state.

* `Sha256.digest`;
* **`Sha256.length_digest`**: a digest has 32 bytes.
-/

namespace TransparencyLog.Sha256

/-- The eight words of running state. -/
structure State where
  a : UInt32
  b : UInt32
  c : UInt32
  d : UInt32
  e : UInt32
  f : UInt32
  g : UInt32
  h : UInt32

/-- The first 32 bits of the fractional parts of the square roots of the first eight primes. -/
def initial : State :=
  ⟨0x6a09e667, 0xbb67ae85, 0x3c6ef372, 0xa54ff53a, 0x510e527f, 0x9b05688c, 0x1f83d9ab, 0x5be0cd19⟩

/-- The first 32 bits of the fractional parts of the cube roots of the first 64 primes. -/
def constants : Array UInt32 := #[
  0x428a2f98, 0x71374491, 0xb5c0fbcf, 0xe9b5dba5, 0x3956c25b, 0x59f111f1, 0x923f82a4, 0xab1c5ed5,
  0xd807aa98, 0x12835b01, 0x243185be, 0x550c7dc3, 0x72be5d74, 0x80deb1fe, 0x9bdc06a7, 0xc19bf174,
  0xe49b69c1, 0xefbe4786, 0x0fc19dc6, 0x240ca1cc, 0x2de92c6f, 0x4a7484aa, 0x5cb0a9dc, 0x76f988da,
  0x983e5152, 0xa831c66d, 0xb00327c8, 0xbf597fc7, 0xc6e00bf3, 0xd5a79147, 0x06ca6351, 0x14292967,
  0x27b70a85, 0x2e1b2138, 0x4d2c6dfc, 0x53380d13, 0x650a7354, 0x766a0abb, 0x81c2c92e, 0x92722c85,
  0xa2bfe8a1, 0xa81a664b, 0xc24b8b70, 0xc76c51a3, 0xd192e819, 0xd6990624, 0xf40e3585, 0x106aa070,
  0x19a4c116, 0x1e376c08, 0x2748774c, 0x34b0bcb5, 0x391c0cb3, 0x4ed8aa4a, 0x5b9cca4f, 0x682e6ff3,
  0x748f82ee, 0x78a5636f, 0x84c87814, 0x8cc70208, 0x90befffa, 0xa4506ceb, 0xbef9a3f7, 0xc67178f2]

/-- Rotation to the right by `n`, for `0 < n < 32`. -/
@[inline] def rotate (x n : UInt32) : UInt32 := (x >>> n) ||| (x <<< (32 - n))

/-- The sixteen big-endian words at the front of a block. -/
def blockWords : Nat → Bytes → Array UInt32 → Array UInt32
  | n + 1, b0 :: b1 :: b2 :: b3 :: rest, words =>
    let word := (b0.toUInt32 <<< 24) ||| (b1.toUInt32 <<< 16) ||| (b2.toUInt32 <<< 8) ||| b3.toUInt32
    blockWords n rest (words.push word)
  | _, _, words => words

/-- Adds `n` words to the message schedule. -/
def extend : Nat → Array UInt32 → Array UInt32
  | 0, words => words
  | n + 1, words =>
    let t := words.size
    let x := words.getD (t - 15) 0
    let y := words.getD (t - 2) 0
    let s0 := rotate x 7 ^^^ rotate x 18 ^^^ (x >>> 3)
    let s1 := rotate y 17 ^^^ rotate y 19 ^^^ (y >>> 10)
    extend n (words.push (words.getD (t - 16) 0 + s0 + words.getD (t - 7) 0 + s1))

/-- One round with the sum of its constant and its word. -/
@[inline] def round (s : State) (input : UInt32) : State :=
  let s1 := rotate s.e 6 ^^^ rotate s.e 11 ^^^ rotate s.e 25
  let choice := (s.e &&& s.f) ^^^ (~~~s.e &&& s.g)
  let t1 := s.h + s1 + choice + input
  let s0 := rotate s.a 2 ^^^ rotate s.a 13 ^^^ rotate s.a 22
  let majority := (s.a &&& s.b) ^^^ (s.a &&& s.c) ^^^ (s.b &&& s.c)
  ⟨t1 + (s0 + majority), s.a, s.b, s.c, s.d + t1, s.e, s.f, s.g⟩

/-- The last `n` of the 64 rounds. -/
def rounds (words : Array UInt32) : Nat → State → State
  | 0, s => s
  | n + 1, s => rounds words n (round s (constants.getD (63 - n) 0 + words.getD (63 - n) 0))

/-- Mixes the block at the front of `message` into the state. -/
def compress (s : State) (message : Bytes) : State :=
  let r := rounds (extend 48 (blockWords 16 message (Array.mkEmpty 64))) 64 s
  ⟨s.a + r.a, s.b + r.b, s.c + r.c, s.d + r.d, s.e + r.e, s.f + r.f, s.g + r.g, s.h + r.h⟩

/-- Mixes the first `n` blocks of `message` into the state. -/
def blocks : Nat → Bytes → State → State
  | 0, _, s => s
  | n + 1, message, s => blocks n (message.drop 64) (compress s message)

/-- The message, a one bit, zeros, and the length in bits as 64 bits: a whole number of blocks. -/
def pad (message : Bytes) : Bytes :=
  message ++ 0x80 :: (List.replicate ((119 - message.length % 64) % 64) 0 ++
    Bytes.bigEndian 8 (8 * message.length))

/-- The words of a state, each most significant byte first. -/
def State.bytes (s : State) : Bytes :=
  [s.a, s.b, s.c, s.d, s.e, s.f, s.g, s.h].flatMap fun word => Bytes.bigEndian 4 word.toNat

def digest (message : Bytes) : Bytes :=
  let padded := pad message
  (blocks (padded.length / 64) padded initial).bytes

theorem length_digest (message : Bytes) : (digest message).length = 32 := by
  simp [digest, State.bytes]

end TransparencyLog.Sha256
