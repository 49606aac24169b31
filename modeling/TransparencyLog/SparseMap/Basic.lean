import TransparencyLog.Digest
import TransparencyLog.Store.Contents

/-!
# The sparse map

A map from keys to values as a binary tree of height 256: the bits of a key's hash, from the top
down, lead from the root to its leaf. Subtrees without keys all have the default hash of their
height and are never stored; every other node is stored under its own hash, so that every root
ever produced stays readable.

* `SparseMap.defaultHash`, `SparseMap.emptyRoot`;
* `SparseMap.get`, `SparseMap.prove`, `SparseMap.update`;
* `SparseMap.verify`: checking a proof without the store.
-/

namespace TransparencyLog

/-- The bit of a digest, counted from the last bit of its last byte. -/
def Digest.bit (d : Digest) (position : Nat) : Bool :=
  (d.bytes.getD (31 - position / 8) 0).toNat.testBit (position % 8)

namespace SparseMap

/-- The height of the tree. -/
def height : Nat := 256

/-! ## Default hashes -/

/-- The leaf of an absent key. -/
def emptyLeaf : Digest := leafHash Digest.zero.bytes

/-- A hash and `n` levels of empty subtrees above it. -/
def defaultsFrom : Nat → Digest → List Digest
  | 0, d => [d]
  | n + 1, d => d :: defaultsFrom n (branchHash d d)

/-- The hashes of the empty subtrees of heights 0 to 256. -/
def defaultHashes : Array Digest := (defaultsFrom height emptyLeaf).toArray

/-- The hash of an empty subtree. -/
def defaultHash (h : Nat) : Digest := defaultHashes.getD h emptyLeaf

/-- The root of the map without keys. -/
def emptyRoot : Digest := defaultHash height

/-! ## Stored nodes -/

/-- The bucket of inner nodes: hash to the two hashes below it. -/
def nodeBucket : String := "smt"

/-- The bucket of leaves: leaf hash to value hash. -/
def leafBucket : String := "smt-leaves"

/-- The bucket of values: value hash to value. -/
def valueBucket : String := "smt-values"

/-- The two digests of a 64-byte entry. -/
def splitPair? (bytes : Bytes) : Option (Digest × Digest) := do
  let left ← Digest.ofBytes? (bytes.take 32)
  let right ← Digest.ofBytes? (bytes.drop 32)
  return (left, right)

/-- The children of a stored node. -/
def storedChildren (view : Snapshot) (hash : Digest) : Except LogError (Digest × Digest) := do
  let bytes ← view.fetch nodeBucket hash.bytes
  match splitPair? bytes with
  | some pair => return pair
  | none => throw (.malformedRecord (.mapNodeLength hash.bytes bytes.length))

/-- The children of the node `hash` of height `h + 1`. -/
def children (view : Snapshot) (h : Nat) (hash : Digest) : Except LogError (Digest × Digest) :=
  if hash = defaultHash (h + 1) then .ok (defaultHash h, defaultHash h)
  else storedChildren view hash

/-! ## Reading -/

/-- Goes down from the node `hash` of height `h` to the leaf of a key. Gives the leaf and the
siblings passed, the lowest first, before those already passed. -/
def descend (view : Snapshot) (key : Digest) :
    Nat → Digest → List Digest → Except LogError (Digest × List Digest)
  | 0, hash, siblings => .ok (hash, siblings)
  | h + 1, hash, siblings => do
    let (left, right) ← children view h hash
    if key.bit h then descend view key h right (left :: siblings)
    else descend view key h left (right :: siblings)

/-- The value under a key of the map with this root. -/
def get (view : Snapshot) (root : Digest) (key : Bytes) : Except LogError (Option Bytes) := do
  let (leaf, _) ← descend view (sha256 key) height root []
  if leaf = defaultHash 0 then return none
  let valueHash ← view.fetch leafBucket leaf.bytes
  return some (← view.fetch valueBucket valueHash)

/-- The siblings from a key's leaf up to this root: the proof of its value or of its absence. -/
def prove (view : Snapshot) (root : Digest) (key : Bytes) : Except LogError (List Digest) := do
  return (← descend view (sha256 key) height root []).2

/-! ## Writing -/

/-- The two children of the node over `hash`, of height `h`, and its sibling. -/
def ordered (key : Digest) (h : Nat) (hash sibling : Digest) : Digest × Digest :=
  if key.bit h then (sibling, hash) else (hash, sibling)

/-- Stores the nodes above `hash`, of height `h`, along the siblings, and gives the root. -/
def rebuild (key : Digest) : Nat → Digest → List Digest → Write Digest
  | _, hash, [] => pure hash
  | h, hash, sibling :: rest => do
    let (left, right) := ordered key h hash sibling
    let parent := branchHash left right
    if parent ≠ defaultHash (h + 1) then
      Write.put nodeBucket parent.bytes (left.bytes ++ right.bytes)
    rebuild key (h + 1) parent rest

/-- Sets a key in the map with this root and gives the new root; the old one stays readable. -/
def update (root : Digest) (key value : Bytes) : Write Digest := do
  let keyHash := sha256 key
  let (_, siblings) ← Write.read fun view => descend view keyHash height root []
  let valueHash := sha256 value
  let leaf := leafHash valueHash.bytes
  Write.put leafBucket leaf.bytes valueHash.bytes
  Write.put valueBucket valueHash.bytes value
  rebuild keyHash 0 leaf siblings

/-! ## Checking -/

/-- The root over `hash`, of height `h`, along the siblings. -/
def climb (key : Digest) : Nat → Digest → List Digest → Digest
  | _, hash, [] => hash
  | h, hash, sibling :: rest =>
    let (left, right) := ordered key h hash sibling
    climb key (h + 1) (branchHash left right) rest

/-- The leaf of a key with a value, or of an absent key. -/
def leafOf : Option Bytes → Digest
  | some value => leafHash (sha256 value).bytes
  | none => emptyLeaf

/-- Whether the siblings show that the map with this root has `answer` under `key`. -/
def verify (siblings : List Digest) (root : Digest) (key : Bytes) (answer : Option Bytes) : Bool :=
  siblings.length == height && climb (sha256 key) 0 (leafOf answer) siblings == root

end SparseMap

end TransparencyLog
