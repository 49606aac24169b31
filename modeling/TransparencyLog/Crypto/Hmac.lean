import TransparencyLog.Crypto.Sha256

/-!
# HMAC-SHA256

A keyed hash: the secret, hashed first if it is longer than a block, is mixed into an inner and an
outer pass.

* `Hmac.code`;
* **`Hmac.length_code`**: a code has 32 bytes.
-/

namespace TransparencyLog.Hmac

/-- The secret as one block of 64 bytes. -/
def blockKey (secret : Bytes) : Bytes :=
  let short := if secret.length ≤ 64 then secret else Sha256.digest secret
  short ++ List.replicate (64 - short.length) 0

/-- The authentication code of a message under a secret. -/
def code (secret message : Bytes) : Bytes :=
  let key := blockKey secret
  let inner := Sha256.digest (key.map (· ^^^ 0x36) ++ message)
  Sha256.digest (key.map (· ^^^ 0x5c) ++ inner)

theorem length_code (secret message : Bytes) : (code secret message).length = 32 :=
  Sha256.length_digest _

end TransparencyLog.Hmac
