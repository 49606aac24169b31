import TransparencyLog.Proofs.Tree.Turns

/-!
# Reading, checking and growing the log with words

Sizes and positions come unchecked from whoever asks, and a store may have anything in it. Here the log's
reads, the check of a consistency proof and the appending of a leaf are written with machine words, every
loop with at most 64 turns and every recursion with at most 64 splits. Whatever is asked for and whatever
the store has, they are never stopped, and their outcome is the log's. Only a full log is stopped when it
grows.

* `completeWords`, `completeWords_eq`: the subtrees that a leaf completes;
* `subproofRootsWords`, **`subproofRootsWords_eq`**, `verifyConsistencyWords_eq`: the check of a
  consistency proof;
* `LogWords`: the log with its size in a word; `rootAt_eq`, `leaf_eq`, `auditProof_eq`,
  `consistencyProof_eq`, `append_eq`: what it reads and writes; `append_full`: a full log;
* **`LogWords.never_stopped`**: all of it together.
-/

namespace TransparencyLog.Tree

/-! ## Appending -/

/-- Stores every subtree that the node `index` of a level completes. -/
def completeWords (turns : Nat) (hash : Digest) (level : UInt32) (index : UInt64) : CheckedWrite Unit :=
  if isRightWord index then
    match turns with
    | 0 => fun _ => stopped .endless
    | turns + 1 => do
      let before ← Word.sub index 1
      let left ← CheckedWrite.read fun view => digestWords view level before
      let joined := branchHash left hash
      let above ← Level.next level
      putNodeWords above (index / 2) joined []
      completeWords turns joined above (index / 2)
  else pure ()

theorem completeWords_of_even {turns : Nat} {level : UInt32} {index : UInt64} (h : index.toNat % 2 = 0)
    (hash : Digest) (draft : Draft) : completeWords turns hash level index draft =
      ended (complete hash level.toNat index.toNat draft) := by
  have hleft : ¬isRightWord index = true := by rw [isRightWord_iff]; omega
  rw [completeWords.eq_def, if_neg hleft, complete, if_neg (by omega)]
  rfl

/-- A leaf completes no more subtrees than its index has bits. -/
theorem completeWords_eq {turns : Nat} {level : UInt32} {index : UInt64}
    (hturns : index.toNat < 2 ^ turns) (hlevel : level.toNat + turns < UInt32.size) (hash : Digest)
    (draft : Draft) : completeWords turns hash level index draft =
      ended (complete hash level.toNat index.toNat draft) := by
  induction turns generalizing level index hash draft with
  | zero => exact completeWords_of_even (by rw [Nat.pow_zero] at hturns; omega) hash draft
  | succ turns ih =>
    rcases Nat.mod_two_eq_zero_or_one index.toNat with heven | hodd
    · exact completeWords_of_even heven hash draft
    · obtain ⟨before, hbefore, hpred⟩ := Word.exists_pred (a := index) (by omega)
      obtain ⟨above, habove, hsucc⟩ := Level.exists_next level (by omega)
      rw [completeWords.eq_def, if_pos (isRightWord_iff.mpr hodd), complete, if_pos hodd, ← hpred, ← hsucc]
      refine (CheckedWrite.word_bind hbefore _ draft).trans ?_
      refine CheckedWrite.bind_eq (CheckedWrite.read_eq (fun _ => digestWords_eq) draft)
        fun left draft _ => ?_
      refine (CheckedWrite.word_bind habove _ draft).trans ?_
      exact CheckedWrite.bind_eq (putNodeWords_eq _ _ draft) fun _ draft _ =>
        ih (Word.toNat_half_lt hturns) (by omega) _ draft

/-! ## Consistency proofs -/

/-- The hashes that a proof implies for the first `m` and for all `n` leaves of a subtree, with what is
left of the proof, in at most `splits` nested splits. -/
def subproofRootsWords (splits : Nat) (old : Digest) (whole : Bool) (m n : UInt64)
    (proof : List Digest) : Except Trap (Option (Digest × Digest × List Digest)) :=
  if m = n then
    if whole then .ok (some (old, old, proof))
    else match proof with
      | [] => .ok none
      | next :: rest => .ok (some (next, next, rest))
  else do
    let k ← splitPointWord n
    match proof, splits with
    | [], _ => return none
    | _ :: _, 0 => .error .endless
    | next :: rest, splits + 1 =>
      if m ≤ k then do
        let found ← subproofRootsWords splits old whole m k rest
        return found.map fun (o, w, rest) => (o, branchHash w next, rest)
      else do
        let found ← subproofRootsWords splits old false (← Word.sub m k) (← Word.sub n k) rest
        return found.map fun (o, w, rest) => (branchHash next o, branchHash next w, rest)

/-- The check of a consistency proof with words, whose recursion is stopped before a 65th split. -/
def verifyConsistencyWords (oldRoot newRoot : Digest) (oldSize newSize : UInt64)
    (proof : List Digest) : Except Trap Bool :=
  if oldSize = 0 then .ok true
  else if newSize < oldSize then .ok false
  else if oldSize = newSize then .ok (oldRoot == newRoot)
  else do
    let found ← subproofRootsWords 64 oldRoot true oldSize newSize proof.reverse
    return found == some (oldRoot, newRoot, [])

section Subproof

variable {splits : Nat} {old : Digest} {whole : Bool} {m n : UInt64}

theorem subproofRootsWords_self (h : m.toNat = n.toNat) (proof : List Digest) :
    subproofRootsWords splits old whole m n proof =
      .ok (subproofRoots? old whole m.toNat n.toNat proof) := by
  rw [subproofRootsWords.eq_def, if_pos (UInt64.toNat_inj.mp h), h, subproofRoots?_self]
  split
  · rfl
  · cases proof <;> rfl

theorem subproofRootsWords_nil (hm : 0 < m.toNat) (hmn : m.toNat < n.toNat) :
    subproofRootsWords splits old whole m n [] = .ok (subproofRoots? old whole m.toNat n.toNat []) := by
  obtain ⟨k, hk, -⟩ := exists_splitPointWord n
  rw [subproofRootsWords.eq_def, if_neg (mt UInt64.toNat_inj.mpr (Nat.ne_of_lt hmn)), hk, ok_bind,
    subproofRoots?_nil old whole hm hmn]
  rfl

/-- A half of a tree takes one split less. -/
theorem splitPoint_le_two_pow {n : Nat} (h : 1 < n) (hn : n ≤ 2 ^ (splits + 1)) :
    splitPoint n ≤ 2 ^ splits := by
  obtain ⟨level, hk, hlow, -⟩ := exists_splitPoint_eq h
  have hlevel := (Nat.pow_lt_pow_iff_right (by decide : 1 < 2)).mp (Nat.lt_of_lt_of_le hlow hn)
  rw [hk]
  exact Nat.pow_le_pow_right (by decide) (Nat.le_of_lt_succ hlevel)

/-- **The splits nest no deeper than the size has bits.** Both parts stay within the half they are in, so
no difference is below zero. -/
theorem subproofRootsWords_eq {proof : List Digest} (hm : 0 < m.toNat) (hmn : m.toNat ≤ n.toNat)
    (hsplits : n.toNat ≤ 2 ^ splits) : subproofRootsWords splits old whole m n proof =
      .ok (subproofRoots? old whole m.toNat n.toNat proof) := by
  induction splits generalizing whole m n proof with
  | zero => exact subproofRootsWords_self (by rw [Nat.pow_zero] at hsplits; omega) proof
  | succ splits ih =>
    rcases Nat.eq_or_lt_of_le hmn with heq | hlt
    · exact subproofRootsWords_self heq proof
    cases proof with
    | nil => exact subproofRootsWords_nil hm hlt
    | cons next rest =>
      obtain ⟨k, hk, hsplit⟩ := exists_splitPointWord n
      have hhalf := splitPoint_le_two_pow (by omega) hsplits
      have hrest := le_two_mul_splitPoint (n := n.toNat) (by omega)
      have hbelow := splitPoint_lt (n := n.toNat) (by omega)
      have hmk : m ≤ k ↔ m.toNat ≤ splitPoint n.toNat := by rw [← hsplit]; exact UInt64.le_iff_toNat_le
      rw [subproofRootsWords.eq_def, if_neg (mt UInt64.toNat_inj.mpr (Nat.ne_of_lt hlt)), hk, ok_bind]
      simp only [hmk]
      rcases Nat.lt_or_ge (splitPoint n.toNat) m.toNat with hright | hleft
      · obtain ⟨m', hm', hsubm⟩ := Word.exists_sub (a := m) (b := k) (by omega)
        obtain ⟨n', hn', hsubn⟩ := Word.exists_sub (a := n) (b := k) (by omega)
        have hhalves := @ih false m' n' rest (by omega) (by omega)
          (by omega)
        rw [if_neg (Nat.not_le.mpr hright), hm', ok_bind, hn', ok_bind, hhalves, ok_bind,
          subproofRoots?_right old whole hlt hright, hsubm, hsubn, hsplit]
        rfl
      · have hhalves := @ih whole m k rest hm (by omega) (by omega)
        rw [if_pos hleft, hhalves, ok_bind, subproofRoots?_left old whole hm hlt hleft, hsplit]
        rfl

end Subproof

theorem verifyConsistencyWords_eq (oldRoot newRoot : Digest) (oldSize newSize : UInt64)
    (proof : List Digest) : verifyConsistencyWords oldRoot newRoot oldSize newSize proof =
      .ok (verifyConsistency oldRoot newRoot oldSize.toNat newSize.toNat proof) := by
  have hzero : oldSize = 0 ↔ oldSize.toNat = 0 := UInt64.toNat_inj.symm
  have hlt : newSize < oldSize ↔ newSize.toNat < oldSize.toNat := UInt64.lt_iff_toNat_lt
  have hsame : oldSize = newSize ↔ oldSize.toNat = newSize.toNat := UInt64.toNat_inj.symm
  rw [verifyConsistencyWords, verifyConsistency]
  simp only [hzero, hlt, hsame]
  split
  · rfl
  split
  · rfl
  split
  · rfl
  rw [subproofRootsWords_eq (by omega) (by omega) (Nat.le_of_lt newSize.toNat_lt)]
  rfl

end TransparencyLog.Tree

namespace TransparencyLog

open TransparencyLog.Tree

/-! ## The log -/

/-- The log with its size in a word. -/
structure LogWords where
  size : UInt64
deriving DecidableEq, Repr

namespace LogWords

/-- The log with its size as a number. -/
def toView (log : LogWords) : LogView := ⟨log.size.toNat⟩

/-- The data of the leaf `index`. -/
def leaf (log : LogWords) (view : Snapshot) (index : UInt64) : Checked Bytes :=
  if log.size ≤ index then throw (.outOfRange (.leafBeyond index.toNat log.size.toNat))
  else do
    let node ← nodeWords view 0 index
    return node.value

/-- The root over the first `size` leaves. -/
def rootAt (log : LogWords) (view : Snapshot) (size : UInt64) : Checked Digest := do
  log.toView.checkSize size.toNat
  if size = 0 then return emptyRoot
  let top ← levelCountWord size
  let low ← lowestWords size 64 0
  let count ← levelSizeWord size low
  let hash ← digestWords view low (← Word.sub count 1)
  let above ← Level.next low
  rootUpWords view size top 64 above hash

/-- The path that shows the leaf `index` to be in the tree of the first `size` leaves. -/
def auditProof (log : LogWords) (view : Snapshot) (index size : UInt64) : Checked (List Digest) := do
  log.toView.checkSize size.toNat
  if size = 0 then return []
  if size ≤ index then throw (.outOfRange (.leafNotIn index.toNat size.toNat))
  pathWords view index 0 size

/-- The proof that the first `first` leaves are the beginning of the first `second` leaves. -/
def consistencyProof (log : LogWords) (view : Snapshot) (first second : UInt64) :
    Checked (List Digest) := do
  log.toView.checkSize second.toNat
  if second < first then throw (.outOfRange (.firstExceedsSecond first.toNat second.toNat))
  if first = 0 ∨ first = second then return []
  let last ← Word.sub first 1
  let (index, level) ← boundaryWords 64 last 0
  let start ← if 0 < index then (fun d => [d]) <$> digestWords view level index else pure []
  let path ← pathWords view index level second
  return start ++ path

/-- Appends a leaf; its index is the old size. -/
def append (log : LogWords) (data : Bytes) : CheckedWrite LogWords := do
  let hash := leafHash data
  putNodeWords 0 log.size hash data
  completeWords 64 hash 0 log.size
  return ⟨← Word.add log.size 1⟩

variable {log : LogWords} {view : Snapshot}

theorem leaf_eq (index : UInt64) : log.leaf view index = ended (log.toView.leaf view index.toNat) := by
  have hle : log.size ≤ index ↔ log.toView.size ≤ index.toNat := UInt64.le_iff_toNat_le
  rw [leaf, LogView.leaf]
  simp only [hle]
  split
  · rfl
  · refine (Checked.bind_eq nodeWords_eq fun _ _ => rfl).trans (congrArg ended ?_)
    exact (map_eq_pure_bind _ _).symm

theorem rootAt_eq (size : UInt64) :
    log.rootAt view size = ended (log.toView.rootAt view size.toNat) := by
  rw [rootAt, LogView.rootAt]
  refine Checked.bind_eq rfl fun _ _ => ?_
  have hzero : size = 0 ↔ size.toNat = 0 := UInt64.toNat_inj.symm
  by_cases hempty : size.toNat = 0
  · rw [if_pos (hzero.mpr hempty), hempty, rootFrom, if_pos rfl]
    rfl
  · have hbottom : levelSize size.toNat 0 = size.toNat := Nat.shiftRight_zero
    obtain ⟨top, htop, hheight, hlevels⟩ := exists_levelCountWord (mt hzero.mp hempty)
    obtain ⟨low, hlow, hodd, hturns, hroot⟩ := @exists_lowestWords view 64 size 0
      (by change levelSize _ 0 ≠ 0; omega)
      (by change levelSize _ 0 < _; rw [hbottom]; exact size.toNat_lt) (by decide)
    obtain ⟨count, hcount, hsize⟩ := exists_levelSizeWord size low
    obtain ⟨before, hbefore, hpred⟩ := Word.exists_pred (a := count) (by omega)
    obtain ⟨above, habove, hsucc⟩ := Level.exists_next low
      (Nat.lt_of_le_of_lt (Nat.succ_le_succ hturns) (by decide))
    change rootFrom view 0 (levelSize size.toNat 0) none = _ at hroot
    rw [hbottom, rootFrom.eq_def view low.toNat, if_neg (by omega), if_pos hodd, ← hsize, ← hpred] at hroot
    rw [if_neg (mt hzero.mp hempty), Checked.word_bind htop, Checked.word_bind hlow,
      Checked.word_bind hcount, Checked.word_bind hbefore, hroot]
    refine Checked.bind_eq digestWords_eq fun hash _ => ?_
    rw [Checked.word_bind habove, rootUpWords_eq hlevels (by omega), hsucc, levelSize_succ, hsize]

theorem auditProof_eq (index size : UInt64) : log.auditProof view index size =
    ended (log.toView.auditProof view index.toNat size.toNat) := by
  have hzero : size = 0 ↔ size.toNat = 0 := UInt64.toNat_inj.symm
  have hle : size ≤ index ↔ size.toNat ≤ index.toNat := UInt64.le_iff_toNat_le
  rw [auditProof, LogView.auditProof]
  refine Checked.bind_eq rfl fun _ _ => ?_
  simp only [hzero, hle]
  split
  · rfl
  split
  · rfl
  exact pathWords_eq (by decide)

theorem consistencyProof_eq (first second : UInt64) : log.consistencyProof view first second =
    ended (log.toView.consistencyProof view first.toNat second.toNat) := by
  have hlt : second < first ↔ second.toNat < first.toNat := UInt64.lt_iff_toNat_lt
  have htrivial : (first = 0 ∨ first = second) ↔ (first.toNat = 0 ∨ first.toNat = second.toNat) :=
    or_congr UInt64.toNat_inj.symm UInt64.toNat_inj.symm
  rw [consistencyProof, LogView.consistencyProof]
  refine Checked.bind_eq rfl fun _ _ => ?_
  simp only [hlt, htrivial]
  split
  · rfl
  split
  · rfl
  · next hnontrivial =>
    obtain ⟨last, hlast, hpred⟩ := Word.exists_pred (a := first) (by omega)
    obtain ⟨node, level, hwords, hnode, hlevel⟩ := @exists_boundaryWords 64 last 0
      last.toNat_lt (by decide)
    have hleft : 0 < node ↔ 0 < node.toNat := UInt64.lt_iff_toNat_lt
    change boundary last.toNat 0 = _ at hnode
    rw [Checked.word_bind hlast, Checked.word_bind hwords, ← hpred, hnode]
    simp only [hleft]
    have hpath : ∀ start : List Digest,
        (pathWords view node level second >>= fun path => pure (start ++ path)) =
          ended (pathToRoot view node.toNat level.toNat second.toNat >>= fun path =>
            pure (start ++ path)) :=
      fun start => Checked.bind_eq (pathWords_eq hlevel) fun _ _ => rfl
    split
    · exact Checked.bind_eq (by rw [digestWords_eq, Checked.map_ended]) fun start _ => hpath start
    · exact hpath []

/-- **A log that is not full** grows as it does with numbers. -/
theorem append_eq (h : log.size.toNat + 1 < UInt64.size) (data : Bytes) (draft : Draft) :
    (toView <$> log.append data) draft = ended (log.toView.append data draft) := by
  have hsize : Word.add log.size 1 = .ok (log.size + 1) := Word.add_eq h
  have hview : toView ⟨log.size + 1⟩ = ⟨log.toView.size + 1⟩ := congrArg LogView.mk (Word.toNat_add h)
  rw [append, LogView.append, map_bind]
  simp only [map_bind]
  refine CheckedWrite.bind_eq (putNodeWords_eq _ _ draft) fun _ draft _ => ?_
  refine CheckedWrite.bind_eq (completeWords_eq log.size.toNat_lt (by decide) _ draft) fun _ draft _ => ?_
  refine (CheckedWrite.word_bind hsize _ draft).trans ?_
  rw [map_pure, hview]
  rfl

/-- A full log is stopped when it raises its size, after it has stored the leaf. -/
theorem append_full (h : log.size.toNat + 1 = UInt64.size) {data : Bytes} {draft : Draft}
    {grown : LogView × Draft} (hgrown : log.toView.append data draft = .ok grown) :
    log.append data draft = stopped .wrapped := by
  have hsize : Word.add log.size 1 = .error .wrapped := if_neg (Nat.not_lt.mpr (Nat.le_of_eq h.symm))
  obtain ⟨_, stored, hput, hrest⟩ := Write.exists_of_bind hgrown
  obtain ⟨_, completed, hcomplete, -⟩ := Write.exists_of_bind hrest
  have hputWords : putNodeWords 0 log.size (leafHash data) data draft = ended (.ok ((), stored)) := by
    rw [putNodeWords_eq]
    exact congrArg ended hput
  have hcompleteWords : completeWords 64 (leafHash data) 0 log.size stored =
      ended (.ok ((), completed)) := by
    rw [completeWords_eq log.size.toNat_lt (by decide)]
    exact congrArg ended hcomplete
  rw [append, hsize]
  change (putNodeWords 0 log.size (leafHash data) data draft >>= _) = _
  rw [hputWords]
  change (completeWords 64 (leafHash data) 0 log.size stored >>= _) = _
  rw [hcompleteWords]
  rfl

/-- **Reading, checking and growing a log is never stopped by its words.** No sum, difference or shift
leaves the words, no loop takes more than 64 turns and no recursion nests more than 64 splits, whatever is
asked for and whatever the store has; a value or a refusal comes out, the same as with numbers. Growth
needs a size that can be raised. -/
theorem never_stopped (log : LogWords) (view : Snapshot) :
    (∀ size, log.rootAt view size = ended (log.toView.rootAt view size.toNat)) ∧
    (∀ index, log.leaf view index = ended (log.toView.leaf view index.toNat)) ∧
    (∀ index size, log.auditProof view index size =
      ended (log.toView.auditProof view index.toNat size.toNat)) ∧
    (∀ first second, log.consistencyProof view first second =
      ended (log.toView.consistencyProof view first.toNat second.toNat)) ∧
    (∀ root size index path data, verifyAuditWords root size index path data =
      .ok (verifyAudit root size.toNat index.toNat path data)) ∧
    (∀ oldRoot newRoot oldSize newSize proof,
      verifyConsistencyWords oldRoot newRoot oldSize newSize proof =
        .ok (verifyConsistency oldRoot newRoot oldSize.toNat newSize.toNat proof)) ∧
    (log.size.toNat + 1 < UInt64.size → ∀ data draft,
      (toView <$> log.append data) draft = ended (log.toView.append data draft)) :=
  ⟨rootAt_eq, leaf_eq, auditProof_eq, consistencyProof_eq, verifyAuditWords_eq,
    verifyConsistencyWords_eq, append_eq⟩

/-- A log that lacks one leaf takes it, and its size is then the largest word. -/
theorem never_stopped_last_leaf :
    (⟨18446744073709551614⟩ : LogWords).size.toNat + 1 < UInt64.size ∧
      (toView <$> (⟨18446744073709551614⟩ : LogWords).append [7]) ⟨∅, ∅⟩ =
        ended (.ok (⟨18446744073709551615⟩, (⟨∅, ∅⟩ : Draft).set (bucket 0)
          (nodeKey 18446744073709551614) (Framing.pair (leafHash [7]).bytes [7]))) := by
  have hroom : (⟨18446744073709551614⟩ : LogWords).size.toNat + 1 < UInt64.size := by decide
  obtain ⟨-, -, -, -, -, -, happend⟩ := never_stopped ⟨18446744073709551614⟩ (Contents.snapshot ∅)
  refine ⟨hroom, (happend hroom [7] ⟨∅, ∅⟩).trans (congrArg ended ?_)⟩
  have heven : complete (leafHash [7]) 0 18446744073709551614 = pure () := by
    rw [complete, if_neg (by decide)]
  change (putNode 0 18446744073709551614 (leafHash [7]) [7] >>= fun _ =>
    complete (leafHash [7]) 0 18446744073709551614 >>= fun _ => _) _ = _
  rw [heven, Write.bind_ok (putNode_apply (by decide) _)]
  rfl

end LogWords

end TransparencyLog
