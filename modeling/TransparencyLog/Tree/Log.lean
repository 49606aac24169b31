import TransparencyLog.Digest
import TransparencyLog.Record
import TransparencyLog.Store.Contents
import TransparencyLog.Tree.Index

/-!
# The log in the store

An append-only list of leaves, kept as one row of digests per level: level `k` holds the digest of
every complete subtree of `2 ^ k` leaves, in bucket `log-k` under the node's decimal index, and the
lowest level also holds the leaves' data. Roots and proofs at any size up to the number of leaves
are put together from these digests.

* `LogView`: the log as it was at some number of leaves;
* `LogView.append`, `LogView.leaf`, `LogView.rootAt`;
* `LogView.auditProof`, `LogView.consistencyProof`.
-/

namespace TransparencyLog

namespace Tree

/-! ## Stored nodes -/

def bucket (level : Nat) : String := "log-" ++ toString level

/-- The key of a node on its level. -/
def nodeKey (index : Nat) : Bytes := Bytes.ofText (toString index)

/-- The stored node `index` of a level. -/
def node (view : Snapshot) (level index : Nat) : Except LogError Node := do
  Node.decode (← view.fetch (bucket level) (nodeKey index))

/-- The digest of the node `index` of a level. -/
def digest (view : Snapshot) (level index : Nat) : Except LogError Digest := do
  match Digest.ofBytes? (← node view level index).digest with
  | some d => return d
  | none => throw (.malformedRecord (.nodeDigestLength level index))

def putNode (level index : Nat) (hash : Digest) (value : Bytes) : Write Unit := do
  let encoded ← (Node.make hash.bytes value >>= Node.encode : Except LogError Bytes)
  Write.put (bucket level) (nodeKey index) encoded

/-! ## Appending -/

/-- Stores every subtree that the node `index` of a level completes. -/
def complete (hash : Digest) (level index : Nat) : Write Unit :=
  if index % 2 = 1 then do
    let left ← Write.read fun view => digest view level (index - 1)
    let joined := branchHash left hash
    putNode (level + 1) (index / 2) joined []
    complete joined (level + 1) (index / 2)
  else pure ()
termination_by index
decreasing_by omega

/-! ## Roots -/

/-- Joins the complete subtrees that make up the first leaves, from the smallest to the largest.
`count` is the number of complete subtrees on `level`, and `below` covers the leaves after them. -/
def rootFrom (view : Snapshot) (level count : Nat) (below : Option Digest) :
    Except LogError Digest :=
  if count = 0 then .ok (below.getD emptyRoot)
  else if count % 2 = 1 then do
    let left ← digest view level (count - 1)
    let joined := match below with
      | none => left
      | some right => branchHash left right
    rootFrom view (level + 1) (count / 2) (some joined)
  else rootFrom view (level + 1) (count / 2) below
termination_by count
decreasing_by all_goals omega

/-! ## Paths -/

/-- The digest over the last node of the next level, from the one over the node `last`, which is
the last of its level and may be incomplete. -/
def raiseLast (view : Snapshot) (level last : Nat) (hash : Digest) : Except LogError Digest :=
  if isRight last then do
    return branchHash (← digest view level (last - 1)) hash
  else .ok hash

/-- The digest over the last node, raised by `steps` levels. -/
def raiseLastBy (view : Snapshot) : Nat → Nat → Nat → Digest → Except LogError Digest
  | 0, _, _, hash => .ok hash
  | steps + 1, level, last, hash => do
    raiseLastBy view steps (level + 1) (parent last) (← raiseLast view level last hash)

/-- The siblings from the node `index` of a level up to the root, where `last` is the last node of
the level and `hash` the digest over it. -/
def siblings (view : Snapshot) (index level last : Nat) (hash : Digest) :
    Except LogError (List Digest) :=
  if last = 0 then .ok []
  else do
    let other := sibling index
    let found ← if other < last then some <$> digest view level other
      else pure (if other = last then some hash else none)
    let hash ← raiseLast view level last hash
    let rest ← siblings view (parent index) (level + 1) (parent last) hash
    return found.toList ++ rest
termination_by last
decreasing_by simp only [parent]; omega

/-- The path from the node `index` of a level to the root of the first `size` leaves. -/
def pathToRoot (view : Snapshot) (index level size : Nat) : Except LogError (List Digest) :=
  if size = 0 then .ok []
  else do
    let last := size - 1
    let hash ← digest view 0 last
    let hash ← raiseLastBy view level 0 last hash
    siblings view index level (last >>> level) hash

/-- The highest complete subtree that ends with the node `index` of a level: node and level. -/
def boundary (index level : Nat) : Nat × Nat :=
  if index % 2 = 1 then boundary (index / 2) (level + 1) else (index, level)
termination_by index
decreasing_by omega

end Tree

/-- The log as it was when it had `size` leaves. -/
structure LogView where
  size : Nat
deriving DecidableEq, Repr

namespace LogView

open TransparencyLog.Tree

/-- Refuses sizes the view does not reach. -/
def checkSize (log : LogView) (size : Nat) : Except LogError Unit :=
  if log.size < size then .error (.outOfRange (.sizeBeyond size log.size)) else .ok ()

/-- Appends a leaf; its index is the old size. -/
def append (log : LogView) (data : Bytes) : Write LogView := do
  let hash := leafHash data
  putNode 0 log.size hash data
  complete hash 0 log.size
  return ⟨log.size + 1⟩

/-- The data of the leaf `index`. -/
def leaf (log : LogView) (view : Snapshot) (index : Nat) : Except LogError Bytes :=
  if log.size ≤ index then .error (.outOfRange (.leafBeyond index log.size))
  else (node view 0 index).map Node.value

/-- The data of `count` leaves from `index` on. -/
def leaves (log : LogView) (view : Snapshot) (index : Nat) : Nat → Except LogError (List Bytes)
  | 0 => .ok []
  | count + 1 => do
    let data ← log.leaf view index
    return data :: (← leaves log view (index + 1) count)

/-- The root over the first `size` leaves. -/
def rootAt (log : LogView) (view : Snapshot) (size : Nat) : Except LogError Digest := do
  log.checkSize size
  rootFrom view 0 size none

def root (log : LogView) (view : Snapshot) : Except LogError Digest := log.rootAt view log.size

/-- The path that shows the leaf `index` to be in the tree of the first `size` leaves. -/
def auditProof (log : LogView) (view : Snapshot) (index size : Nat) :
    Except LogError (List Digest) := do
  log.checkSize size
  if size = 0 then return []
  if size ≤ index then throw (.outOfRange (.leafNotIn index size))
  pathToRoot view index 0 size

/-- The proof that the tree of the first `first` leaves is the beginning of the tree of the first
`second` leaves. -/
def consistencyProof (log : LogView) (view : Snapshot) (first second : Nat) :
    Except LogError (List Digest) := do
  log.checkSize second
  if second < first then throw (.outOfRange (.firstExceedsSecond first second))
  if first = 0 ∨ first = second then return []
  let (index, level) := boundary (first - 1) 0
  let start ← if 0 < index then (fun d => [d]) <$> digest view level index else pure []
  return start ++ (← pathToRoot view index level second)

end LogView

end TransparencyLog
