import TransparencyLog.Digest
import TransparencyLog.Tree.Index

/-!
# Checking proofs about the tree

A client that knows only roots and sizes checks that a leaf lies in a tree, and that a smaller tree
is the beginning of a larger one. Both checks recompute roots from the proof and use up all of it.

* `Tree.climb?`, `Tree.verifyAudit`: an audit path, from the leaf upwards;
* `Tree.subproofRoots?`, `Tree.verifyConsistency`: a consistency proof, from the root downwards.
-/

namespace TransparencyLog.Tree

/-! ## Audit paths -/

/-- Climbs from the node `index` of a level of `size` nodes to the root, taking siblings from the
path. A last node without a sibling moves up unchanged. Gives the root and what the path has
left, or nothing if the path is too short. -/
def climb? (hash : Digest) (index size : Nat) (path : List Digest) :
    Option (Digest × List Digest) :=
  if size ≤ 1 then some (hash, path)
  else if index % 2 = 0 ∧ index + 1 = size then
    climb? hash (index / 2) (size / 2 + size % 2) path
  else match path with
    | [] => none
    | other :: rest =>
      let joined := if index % 2 = 1 then branchHash other hash else branchHash hash other
      climb? joined (index / 2) (size / 2 + size % 2) rest
termination_by size
decreasing_by all_goals omega

/-- Whether `path` shows that leaf `index` of the tree of `size` leaves with this root holds
`data`. -/
def verifyAudit (root : Digest) (size index : Nat) (path : List Digest) (data : Bytes) : Bool :=
  index < size && climb? (leafHash data) index size path == some (root, [])

/-! ## Consistency proofs -/

/-- The hashes that a proof implies for the first `m` and for all `n` leaves of a subtree, with what
is left of the proof. Elements are taken outermost first. `whole` says that the old part is the
whole old tree, whose root `old` is then known. -/
def subproofRoots? (old : Digest) (whole : Bool) (m n : Nat) (proof : List Digest) :
    Option (Digest × Digest × List Digest) :=
  if m = n then
    if whole then some (old, old, proof)
    else match proof with
      | [] => none
      | next :: rest => some (next, next, rest)
  else if n ≤ 1 then none
  else match proof with
    | [] => none
    | next :: rest =>
      let k := splitPoint n
      if m ≤ k then
        (subproofRoots? old whole m k rest).map fun (o, w, rest) => (o, branchHash w next, rest)
      else
        (subproofRoots? old false (m - k) (n - k) rest).map fun (o, w, rest) =>
          (branchHash next o, branchHash next w, rest)
termination_by n
decreasing_by
  · exact splitPoint_lt (by omega)
  · have := splitPoint_pos (n := n) (by omega)
    omega

/-- Whether `proof` shows that the tree of `oldSize` leaves is the beginning of the tree of
`newSize` leaves. An empty old tree is the beginning of every tree. -/
def verifyConsistency (oldRoot newRoot : Digest) (oldSize newSize : Nat) (proof : List Digest) :
    Bool :=
  if oldSize = 0 then true
  else if newSize < oldSize then false
  else if oldSize = newSize then oldRoot == newRoot
  else subproofRoots? oldRoot true oldSize newSize proof.reverse == some (oldRoot, newRoot, [])

end TransparencyLog.Tree
