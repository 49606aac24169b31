import TransparencyLog.Crypto.Sha256
import TransparencyLog.Text.Hex

/-!
# Digests

The 32-byte hashes the log and the map are made of. Leaves and branches are hashed with different
first bytes, so no leaf is ever taken for a branch.

* `Digest`, `Digest.ofBytes?`, `Digest.text`;
* `sha256`, `leafHash`, `branchHash`, `emptyRoot`.
-/

namespace TransparencyLog

/-- A hash: 32 bytes. -/
structure Digest where
  bytes : Bytes
  length_eq : bytes.length = 32

namespace Digest

theorem ext_iff {a b : Digest} : a = b ↔ a.bytes = b.bytes := by
  cases a; cases b; simp

@[ext] theorem ext {a b : Digest} (h : a.bytes = b.bytes) : a = b := ext_iff.2 h

instance : DecidableEq Digest := fun _ _ => decidable_of_iff _ ext_iff.symm

instance : Repr Digest := ⟨fun d _ => Hex.encode d.bytes⟩

/-- The digest of exactly 32 bytes. -/
def ofBytes? (bytes : Bytes) : Option Digest :=
  if h : bytes.length = 32 then some ⟨bytes, h⟩ else none

/-- 32 zero bytes. -/
def zero : Digest := ⟨List.replicate 32 0, by simp⟩

instance : Inhabited Digest := ⟨zero⟩

def text (d : Digest) : String := Hex.encode d.bytes

@[simp] theorem ofBytes?_bytes (d : Digest) : ofBytes? d.bytes = some d := by
  simp [ofBytes?, d.length_eq]

theorem ofBytes?_eq_some_iff {bytes : Bytes} {d : Digest} :
    ofBytes? bytes = some d ↔ bytes = d.bytes := by
  constructor
  · intro h
    unfold ofBytes? at h
    split at h
    · cases h; rfl
    · simp at h
  · rintro rfl; simp

end Digest

/-- The SHA-256 hash of a byte string; map keys and values are addressed by it. -/
def sha256 (data : Bytes) : Digest := ⟨Sha256.digest data, Sha256.length_digest data⟩

/-- The hash of a leaf holding `data`. -/
def leafHash (data : Bytes) : Digest := sha256 (0 :: data)

/-- The hash of the branch over two subtrees. -/
def branchHash (left right : Digest) : Digest := sha256 (1 :: (left.bytes ++ right.bytes))

/-- The root of a tree with no leaves. -/
def emptyRoot : Digest := sha256 []

end TransparencyLog
