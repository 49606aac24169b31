import TransparencyLog.Crypto.Sha512

/-!
# Ed25519 signatures

Signatures on the twisted Edwards curve over the field of `2 ^ 255 - 19` elements. Points are kept
in extended coordinates and field elements as natural numbers below the modulus.

Checking is the permissive rule: the scalar half has to be below the group order, the key may be
any bytes that stand for a point, and the first half of the signature has to be the bytes of the
recomputed point, with the key's own bytes in the challenge.

* `Ed25519.publicKey`, `Ed25519.sign`, `Ed25519.verify`;
* `Ed25519.decompress?`: the point that 32 bytes stand for.
-/

namespace TransparencyLog.Ed25519

/-! ## The field -/

/-- The field's modulus. -/
def modulus : Nat := (1 <<< 255) - 19

/-- The order of the base point. -/
def order : Nat := (1 <<< 252) + 27742317777372353535851937790883648493

/-- The curve's constant, `-121665 / 121666`. -/
def curveConstant : Nat :=
  37095705934669439343138083508754565189542113879843219016388785533085940283555

/-- A square root of `-1`. -/
def rootOfMinusOne : Nat :=
  19681161376707505956807079304988542015446066515923890162744021073123829784752

@[inline] def mul (a b : Nat) : Nat := a * b % modulus

@[inline] def add (a b : Nat) : Nat := (a + b) % modulus

@[inline] def sub (a b : Nat) : Nat := (a + (modulus - b)) % modulus

@[inline] def neg (a : Nat) : Nat := sub 0 a

/-- The power of `base` to the low `bits` bits of an exponent. -/
def power (base : Nat) : Nat → Nat → Nat
  | 0, _ => 1
  | bits + 1, exponent =>
    let root := power base bits (exponent / 2)
    let square := mul root root
    if exponent % 2 = 1 then mul square base else square

def inverse (a : Nat) : Nat := power a 255 (modulus - 2)

/-! ## Points -/

/-- A point in extended coordinates: `x = X / Z`, `y = Y / Z` and `x * y = T / Z`. -/
structure Point where
  X : Nat
  Y : Nat
  Z : Nat
  T : Nat

namespace Point

/-- The neutral element. -/
def zero : Point := ⟨0, 1, 1, 0⟩

/-- The generator of the signature group. -/
def base : Point :=
  let x := 15112221349535400772501151409588531511454012693041857206046113283949847762202
  let y := 46316835694926478169428394003475163141307993866256225615783033603165251855960
  ⟨x, y, 1, mul x y⟩

/-- The sum of two points; one formula serves equal and different ones. -/
def plus (p q : Point) : Point :=
  let a := mul (sub p.Y p.X) (sub q.Y q.X)
  let b := mul (add p.Y p.X) (add q.Y q.X)
  let c := mul (mul (2 * p.T) q.T) curveConstant
  let d := mul (2 * p.Z) q.Z
  let e := sub b a
  let f := sub d c
  let g := add d c
  let h := add b a
  ⟨mul e f, mul g h, mul f g, mul e h⟩

def double (p : Point) : Point :=
  let a := mul p.X p.X
  let b := mul p.Y p.Y
  let c := 2 * mul p.Z p.Z
  let h := add a b
  let s := add p.X p.Y
  let e := sub h (mul s s)
  let g := sub a b
  let f := add (c % modulus) g
  ⟨mul e f, mul g h, mul f g, mul e h⟩

def negate (p : Point) : Point := ⟨neg p.X, p.Y, p.Z, neg p.T⟩

/-- The multiple of a point by the low `bits` bits of a scalar. -/
def times (p : Point) : Nat → Nat → Point
  | 0, _ => zero
  | bits + 1, scalar =>
    let half := (times p bits (scalar / 2)).double
    if scalar % 2 = 1 then half.plus p else half

/-- The 32 bytes of a point: `y` with the parity of `x` in the top bit. -/
def compress (p : Point) : Bytes :=
  let inv := inverse p.Z
  let x := mul p.X inv
  let y := mul p.Y inv
  Bytes.littleEndian 32 (y + ((x % 2) <<< 255))

end Point

/-- The even square root of `u / v`, if there is one. -/
def evenRoot? (u v : Nat) : Option Nat :=
  let v3 := mul (mul v v) v
  let v7 := mul (mul v3 v3) v
  let r := mul (mul u v3) (power (mul u v7) 252 ((modulus - 5) / 8))
  let check := mul v (mul r r)
  let root? :=
    if check = u % modulus then some r
    else if check = neg (u % modulus) then some (mul r rootOfMinusOne)
    else none
  root?.map fun r => if r % 2 = 1 then neg r else r

/-- The point that 32 bytes stand for: `y` is reduced by the modulus, and a zero `x` goes with
either sign. -/
def decompress? (key : Bytes) : Option Point :=
  if key.length ≠ 32 then none
  else
    let n := Bytes.number key
    let y := n % (1 <<< 255) % modulus
    let yy := mul y y
    (evenRoot? (sub yy 1) (add (mul yy curveConstant) 1)).map fun root =>
      let x := if n >>> 255 = 1 then neg root else root
      ⟨x, y, 1, mul x y⟩

/-! ## Keys and signatures -/

/-- The secret scalar and the nonce key of a seed. -/
def expand (seed : Bytes) : Nat × Bytes :=
  let h := Sha512.digest seed
  let n := Bytes.number (h.take 32)
  (n % (1 <<< 254) / 8 * 8 + (1 <<< 254), h.drop 32)

def publicKey (seed : Bytes) : Bytes := (Point.base.times 255 (expand seed).1).compress

/-- The challenge that binds a signature's first half, the key and the message. -/
def challenge (commitment key message : Bytes) : Nat :=
  Bytes.number (Sha512.digest (commitment ++ key ++ message)) % order

/-- The signature under a secret scalar, its nonce key and its public key. -/
def signWith (scalar : Nat) (nonceKey key message : Bytes) : Bytes :=
  let r := Bytes.number (Sha512.digest (nonceKey ++ message)) % order
  let commitment := (Point.base.times 253 r).compress
  let s := (r + challenge commitment key message * scalar) % order
  commitment ++ Bytes.littleEndian 32 s

/-- The signature of a message under a seed. -/
def sign (seed message : Bytes) : Bytes :=
  let (scalar, nonceKey) := expand seed
  signWith scalar nonceKey (publicKey seed) message

/-- Whether 64 bytes are a signature of `message` under `key`. -/
def verify (key message signature : Bytes) : Bool :=
  if signature.length ≠ 64 then false
  else match decompress? key with
    | none => false
    | some a =>
      let commitment := signature.take 32
      let s := Bytes.number (signature.drop 32)
      if order ≤ s then false
      else
        let k := challenge commitment key message
        ((Point.base.times 253 s).plus (a.negate.times 253 k)).compress == commitment

end TransparencyLog.Ed25519
