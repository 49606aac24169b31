import TransparencyLog.Proofs.Ledger.Operations
import TransparencyLog.Proofs.SparseMap.Halves
import TransparencyLog.Proofs.Store.Count

/-!
# How much room a log takes

A pair takes one leaf, a node on each level of the log at most, and its path in the map. So the number of
entries in a store grows by a fixed number for every pair that is submitted, whatever the pairs are and
whatever collides, and all of the entries are short. The lengths in a store therefore fit their 64 bits
unless it has been given very many pairs.

* `Tree.putNode_adds`, `Tree.complete_adds`, `Tree.append_adds`: a leaf and the nodes above it;
* `Ledger.roomPerPair`, **`Ledger.record_adds`**: the transaction of a batch;
* `Signer.Short`: signatures that can be stored;
* **`Ledger.within_commit`**, `Ledger.within_resume`: what a batch and an opening add.
-/

namespace TransparencyLog

/-! ## The log -/

namespace Tree

variable {level index : Nat}

theorem putNode_adds (hlevel : level < 10 ^ 30) (hindex : index < 10 ^ 30) (hash : Digest)
    (value : Bytes) : (putNode level index hash value).Adds 1 := by
  intro draft a draft' hrun before hbefore
  have hvalue : value.length ≤ Framing.maxField := by
    by_contra hlong
    rw [putNode_error (Nat.not_le.mp hlong) _ _ _ _] at hrun
    cases hrun
  rw [putNode_apply hvalue] at hrun
  obtain ⟨-, rfl⟩ := Prod.mk.inj (Except.ok.inj hrun)
  have hsize : (2 : Nat) ^ 20 < UInt64.size := by decide
  have hmax : Framing.maxField + 100 < 2 ^ 20 := by decide
  refine hbefore.set ⟨?_, ?_, ?_⟩
  · have hname := Bytes.length_ofText_toString_le hlevel
    show (Bytes.ofText ("log-" ++ toString level)).length < _
    rw [Bytes.ofText_append, List.length_append]
    have hprefix : (Bytes.ofText "log-").length = 4 := by decide
    omega
  · have hkey := Bytes.length_ofText_toString_le hindex
    show (Bytes.ofText (toString index)).length < _
    omega
  · rw [Framing.length_pair, Digest.length_eq]
    omega

/-- A node is completed on each level at most. -/
theorem complete_adds (n : Nat) (hash : Digest) (hlevel : level + n < 10 ^ 30) (hindex : index < 2 ^ n)
    (hshort : index < 10 ^ 30) : (complete hash level index).Adds n := by
  induction n generalizing hash level index with
  | zero =>
    obtain rfl : index = 0 := by omega
    rw [complete]
    exact Write.adds_pure ()
  | succ n ih =>
    rw [complete]
    by_cases hodd : index % 2 = 1
    · rw [if_pos hodd, Nat.add_comm n]
      have hhalf : index / 2 < 2 ^ n := by omega
      exact Write.adds_read_bind fun view left _ =>
        (putNode_adds (by omega) (by omega) _ []).bind fun _ _ _ _ =>
          ih _ (by omega) hhalf (by omega)
    · rw [if_neg hodd]
      exact (Write.adds_pure ()).mono (Nat.zero_le _)

theorem append_adds {log : LogView} (hsize : log.size < 2 ^ 65) (data : Bytes) :
    (log.append data).Adds (1 + 65) := by
  have hshort : log.size < 10 ^ 30 := Nat.lt_trans hsize (by decide)
  refine (putNode_adds (by decide) hshort _ data).bind fun _ _ _ _ => ?_
  exact (complete_adds 65 _ (by decide) hsize hshort).bind fun _ _ _ _ => Write.adds_pure _

theorem size_of_append {log log' : LogView} {data : Bytes} {draft draft' : Draft}
    (h : log.append data draft = .ok (log', draft')) : log'.size = log.size + 1 := by
  obtain ⟨_, _, -, h₁⟩ := Write.exists_of_bind h
  obtain ⟨_, _, -, h₂⟩ := Write.exists_of_bind h₁
  obtain ⟨rfl, -⟩ := Prod.mk.inj (Except.ok.inj h₂)
  rfl

end Tree

/-! ## Batches -/

theorem MapEntry.length_encode (entry : MapEntry) : entry.encode.length = entry.value.length + 16 := by
  simp only [encode, Binary.block, Binary.word, List.length_append, Bytes.length_littleEndian]
  omega

/-- The signatures on heads are so short that heads can be stored. -/
def Signer.Short (signer : Signer) : Prop :=
  ∀ sign, signer.sign? = some sign → ∀ d : Digest, 80 + (sign d.bytes).length < UInt64.size

theorem TreeHead.short_of_signed {signer : Signer} (short : signer.Short) {treeSize : UInt64}
    {logRoot mapRoot : Digest} {head : TreeHead}
    (h : TreeHead.signed signer treeSize logRoot mapRoot = .ok head) :
    Address.Short ⟨Ledger.headBucket, Ledger.headKey⟩ head.encode := by
  refine ⟨by decide, by decide, ?_⟩
  unfold TreeHead.signed Signer.sign at h
  cases hsign : signer.sign? with
  | none =>
    rw [hsign] at h
    cases h
  | some sign =>
    rw [hsign] at h
    obtain rfl := Except.ok.inj h
    rw [TreeHead.length_encode]
    exact short sign hsign _

namespace Ledger

/-- The most entries that a pair takes: its leaf, a node on every level, and its path in the map. -/
def roomPerPair : Nat := 1 + 65 + (2 + SparseMap.height)

theorem appendAll_adds {log : LogView} (root : Digest) {items : List Record}
    (hsize : log.size + items.length ≤ 2 ^ 65) :
    (appendAll log root items).Adds (roomPerPair * items.length) := by
  induction items generalizing log root with
  | nil => exact Write.adds_pure _
  | cons item rest ih =>
    rw [List.length_cons] at hsize
    rw [List.length_cons, Nat.mul_add_one, Nat.add_comm]
    refine Write.adds_lift_bind fun data hdata => ?_
    obtain ⟨-, hvalue, -⟩ := Record.of_encode hdata
    have hentry : (MapEntry.mk item.value (UInt64.ofNat log.size)).encode.length < UInt64.size := by
      have hmax : Framing.maxField + 16 < UInt64.size := by decide
      rw [MapEntry.length_encode]
      exact Nat.lt_of_le_of_lt (Nat.add_le_add_right hvalue 16) hmax
    rw [roomPerPair, Nat.add_assoc (1 + 65)]
    refine (Tree.append_adds (by omega) data).bind fun _ grown _ hgrown => ?_
    refine (SparseMap.update_adds root item.key hentry).bind fun _ next _ _ => ?_
    rw [← roomPerPair]
    refine ih next ?_
    rw [Tree.size_of_append hgrown]
    omega

/-- **The transaction of a batch** adds so much for every pair, and a head. -/
theorem record_adds {signer : Signer} (short : signer.Short) {items : List Record}
    (hitems : items.length ≤ UInt64.size) :
    (record signer items).Adds (roomPerPair * items.length + 1) := by
  intro draft head draft' hrun before hbefore
  obtain ⟨old, log, mapRoot, between, logRoot, -, hall, -, hsigned, rfl⟩ := exists_of_record hrun
  have hold : old.treeSize.toNat < UInt64.size := old.treeSize.toNat_lt
  have hsize : UInt64.size + UInt64.size ≤ 2 ^ 65 := by decide
  have hroom : old.treeSize.toNat + items.length ≤ 2 ^ 65 := by omega
  have hbetween := appendAll_adds old.mapRoot hroom _ _ _ hall before hbefore
  exact hbetween.set (TreeHead.short_of_signed short hsigned)

section Room

variable {signer : Signer} (short : signer.Short) {store : Store} {count : Nat}
  (h : store.Within count)

include short h

/-- **A batch** adds so much at most, whether it is accepted or refused. -/
theorem within_commit {items : List Record} (hitems : items.length ≤ UInt64.size) :
    (commit signer store items).2.Within (count + (roomPerPair * items.length + 1)) := by
  unfold commit
  cases checkBatch signer items with
  | error e => exact h.mono (Nat.le_add_right _ _)
  | ok _ => exact h.update (record_adds short hitems) none

/-- Opening adds a head at most. -/
theorem within_resume (name : String) : (resume name signer store).2.Within (count + 1) := by
  have hsame : store.Within (count + 1) := h.mono (Nat.le_add_right _ _)
  unfold resume
  cases store.view storedHead with
  | ok head =>
    simp only
    split <;> exact hsame
  | error e =>
    simp only
    split
    · cases hsigned : TreeHead.signed signer 0 emptyRoot SparseMap.emptyRoot with
      | error e => exact hsame
      | ok genesis =>
        exact h.update (Write.adds_put (TreeHead.short_of_signed short hsigned)) none
    · exact hsame

end Room

end Ledger

end TransparencyLog
