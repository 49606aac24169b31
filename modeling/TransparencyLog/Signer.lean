import TransparencyLog.Crypto.Ed25519
import TransparencyLog.Error
import TransparencyLog.Text.Blank

/-!
# Signers

Whoever holds the seed of a log signs its heads; everyone else holds the public key and only
checks them. A signer is given by what it can do, so that a log can be reasoned about without its
signature scheme.

* `Signer`, `Signer.Honest`: its own signatures verify;
* `Signer.ofSeed`, `Signer.ofPublicKey?`: Ed25519 signers;
* `Signer.ofSeedText`, `Signer.ofKeyText`: from hexadecimal text.
-/

namespace TransparencyLog

/-- A key pair, or a public key alone. -/
structure Signer where
  publicKey : Bytes
  sign? : Option (Bytes → Bytes)
  verify : Bytes → Bytes → Bool

namespace Signer

/-- Whether the signer holds a secret key. -/
def canSign (signer : Signer) : Bool := signer.sign?.isSome

def sign (signer : Signer) (message : Bytes) : Except LogError Bytes :=
  match signer.sign? with
  | some f => .ok (f message)
  | none => .error .cannotSign

/-- What the signer signs, it accepts. -/
def Honest (signer : Signer) : Prop :=
  ∀ f, signer.sign? = some f → ∀ message, signer.verify message (f message) = true

/-- The Ed25519 signer of a seed. -/
def ofSeed (seed : Bytes) : Signer :=
  let (scalar, nonceKey) := Ed25519.expand seed
  let key := Ed25519.publicKey seed
  { publicKey := key
    sign? := some (Ed25519.signWith scalar nonceKey key)
    verify := Ed25519.verify key }

/-- The Ed25519 verifier of a public key, if the key stands for a point. -/
def ofPublicKey (key : Bytes) : Except LogError Signer :=
  match Ed25519.decompress? key with
  | some _ => .ok { publicKey := key, sign? := none, verify := Ed25519.verify key }
  | none => .error (.key .notOnCurve)

/-- The 32 bytes of a key written in hexadecimal, with blanks around it. -/
def readKey (text : String) : Except LogError Bytes :=
  match Hex.decode (Blank.trim text) with
  | .error fault => .error (.key (.hex fault))
  | .ok bytes => if bytes.length = 32 then .ok bytes else .error (.key (.length bytes.length))

/-- The signer of a seed written in hexadecimal. -/
def ofSeedText (text : String) : Except LogError Signer := (readKey text).map ofSeed

/-- The verifier of a public key written in hexadecimal. -/
def ofKeyText (text : String) : Except LogError Signer := readKey text >>= ofPublicKey

end Signer

end TransparencyLog
