import TransparencyLog.SparseMap.Basic

/-!
# Compressed map proofs

Most siblings of a map proof are default hashes. A compressed proof marks the others in a bitmap
of 256 bits, lowest bit first, and lists only those. In this form a proof travels beside the value
that it is about.

* `CompressedProof`, `CompressedProof.ofSiblings`, `CompressedProof.siblings?`;
* `MapValue`: a map's answer for a key.
-/

namespace TransparencyLog

/-- A map proof without its default hashes. -/
structure CompressedProof where
  depth : UInt16
  bitmap : Bytes
  siblings : List Digest
deriving DecidableEq, Repr

namespace CompressedProof

/-- The number with these bits, lowest first. -/
def bitsNumber : List Bool → Nat
  | [] => 0
  | bit :: rest => bit.toNat + 2 * bitsNumber rest

/-- The first `8 * count` flags as bytes, lowest bit first; missing flags are unset. -/
def packBits : Nat → List Bool → Bytes
  | 0, _ => []
  | count + 1, flags => UInt8.ofNat (bitsNumber (flags.take 8)) :: packBits count (flags.drop 8)

/-- The bits of bytes, lowest bit first. -/
def unpackBits (bytes : Bytes) : List Bool :=
  bytes.flatMap fun b => (List.range 8).map b.toNat.testBit

/-- Whether each sibling, from height `h` on, differs from the default hash of its height. -/
def presence : Nat → List Digest → List Bool
  | _, [] => []
  | h, sibling :: rest => (sibling != SparseMap.defaultHash h) :: presence (h + 1) rest

/-- The compressed form of a list of siblings, of which the first 256 count. -/
def ofSiblings (siblings : List Digest) : CompressedProof :=
  let kept := siblings.take SparseMap.height
  let flags := presence 0 kept
  { depth := 256
    bitmap := packBits 32 flags
    siblings := (kept.zip flags).filterMap fun (sibling, present) =>
      if present then some sibling else none }

/-- Puts listed siblings where flags are set and default hashes, from height `h` on, elsewhere.
Fails unless the list is used up exactly. -/
def refill : Nat → List Bool → List Digest → Option (List Digest)
  | _, [], [] => some []
  | _, [], _ :: _ => none
  | h, true :: flags, sibling :: rest => (refill (h + 1) flags rest).map (sibling :: ·)
  | _, true :: _, [] => none
  | h, false :: flags, rest => (refill (h + 1) flags rest).map (SparseMap.defaultHash h :: ·)

/-- The full list of siblings, if depth, bitmap and list fit together. -/
def siblings? (proof : CompressedProof) : Option (List Digest) :=
  if proof.depth = 256 ∧ proof.bitmap.length = 32 then
    refill 0 (unpackBits proof.bitmap) proof.siblings
  else none

/-- The full list of siblings, or the error of a proof that does not fit together. -/
def expand (proof : CompressedProof) : Except LogError (List Digest) :=
  match proof.siblings? with
  | some siblings => .ok siblings
  | none => .error .invalidProof

end CompressedProof

/-- What a log answers for a key of its map: the value, if there is one, and the proof. -/
structure MapValue where
  value : Option Bytes
  proof : CompressedProof
deriving DecidableEq, Repr

end TransparencyLog
