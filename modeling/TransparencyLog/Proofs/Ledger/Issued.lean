import TransparencyLog.Proofs.Ledger.Refinement
import TransparencyLog.Proofs.Ledger.Shared
import TransparencyLog.Proofs.SparseMap.Binding
import TransparencyLog.Proofs.Tree.Audit

/-!
# Every head that was issued stays good

A log gives out its head when it is opened, when a batch is accepted and whenever somebody asks. Whatever
happens to the log afterwards, it still has everything that belongs to the head: the proof that any later
head continues it, the root over its leaves, the leaves themselves with their audit paths, and for every
key the entry that the map had under it. None of the nodes that these are read from is ever touched again.

* `SharedLog.Sound.rootAt_eq`, `SharedLog.Sound.auditProof_eq`, `SharedLog.Sound.entries_eq`,
  `SharedLog.Sound.mapValue_eq`: what a log answers, whatever heads it has issued since;
* `Issue`, `ServedLog.Issues`: the runs of a log with every head that it gives out, and the pairs
  recorded by then;
* `Issue.InOrder`: later heads are over more pairs; **`ServedLog.Issues.inOrder`** for whole runs;
* `ServedLog.Proves`, `ServedLog.Recalls`: what a log still has for two heads, and for a key under one;
* **`ServedLog.issued_serviceable`**: any two heads of a run, in every later state.
-/

namespace TransparencyLog

open Ledger

/-! ## What a log answers -/

namespace SharedLog

section Answers

variable {signer : Signer} {log : SharedLog} {pairs : List Record} {heads : List TreeHead}
  {roots : List Digest} {old new head : TreeHead} {key : Bytes}

theorem Sound.rootAt_eq (h : Sound signer log pairs heads roots) (hmem : head ∈ heads) :
    Ledger.rootAt log.store head.treeSize.toNat = .ok head.logRoot := by
  obtain ⟨hissued, hle⟩ := h.issuedAt hmem
  rw [Ledger.rootAt, Store.view, h.storedLog_eq, hissued.logRoot]
  exact Tree.rootAt_eq h.holds hle (by rw [length_leavesOf]; exact hle)

theorem Sound.auditProof_eq (h : Sound signer log pairs heads roots) {index size : Nat}
    (hindex : index < size) (hsize : size ≤ pairs.length) :
    Ledger.auditProof log.store index size =
      .ok (Tree.auditPath index ((leavesOf pairs).take size)) := by
  rw [Ledger.auditProof, Store.view, h.storedLog_eq]
  exact Tree.auditProof_eq h.holds hindex hsize (by rw [length_leavesOf]; exact hsize)

theorem Sound.entries_eq (h : Sound signer log pairs heads roots) {first last : Nat}
    (hle : first ≤ last) (hlt : last < pairs.length) : Ledger.entries log.store first last =
      .ok (leavesOf ((pairs.drop first).take (last - first + 1))) :=
  entries_of_holds h.holds h.storedLog_eq hle hlt

theorem Sound.records_eq (h : Sound signer log pairs heads roots) {first last : Nat}
    (hle : first ≤ last) (hlt : last < pairs.length) :
    Ledger.records log.store first last = .ok ((pairs.drop first).take (last - first + 1)) :=
  records_of_entries (h.entries_eq hle hlt) fun pair hpair =>
    h.tracks.fits pair (List.mem_of_mem_drop (List.mem_of_mem_take hpair))

theorem length_take_leavesOf {size : Nat} (h : size ≤ pairs.length) :
    ((leavesOf pairs).take size).length = size := by
  rw [List.length_take, length_leavesOf]
  exact Nat.min_eq_left h

/-- The list's own proof links any two heads that the log has issued. -/
theorem Sound.verify_prefixProof (h : Sound signer log pairs heads roots) (hold : old ∈ heads)
    (hnew : new ∈ heads) (hle : old.treeSize ≤ new.treeSize) :
    Tree.verifyConsistency old.logRoot new.logRoot old.treeSize.toNat new.treeSize.toNat
      (Tree.prefixProof old.treeSize.toNat ((leavesOf pairs).take new.treeSize.toNat)) = true := by
  obtain ⟨hissued, hsize⟩ := h.issuedAt hnew
  have hlen := length_take_leavesOf hsize
  have hle' := UInt64.le_iff_toNat_le.mp hle
  have hlink := Tree.verifyConsistency_prefixProof (hle'.trans_eq hlen.symm)
  rw [List.take_take, Nat.min_eq_left hle', hlen, ← hissued.logRoot,
    ← (h.issuedAt hold).1.logRoot] at hlink
  exact hlink

/-- The list's own path shows any of the leaves that a head is over. -/
theorem Sound.verify_auditPath (h : Sound signer log pairs heads roots) (hmem : head ∈ heads)
    {index : Nat} {pair : Record} (hpair : pairs[index]? = some pair)
    (hindex : index < head.treeSize.toNat) :
    Tree.verifyAudit head.logRoot head.treeSize.toNat index
      (Tree.auditPath index ((leavesOf pairs).take head.treeSize.toNat))
      (Framing.pair pair.key pair.value) = true := by
  obtain ⟨hissued, hle⟩ := h.issuedAt hmem
  have hdata : ((leavesOf pairs).take head.treeSize.toNat)[index]? =
      some (Framing.pair pair.key pair.value) := by
    rw [List.getElem?_take_of_lt hindex, leavesOf, List.getElem?_map, hpair]
    rfl
  have hverify := Tree.verifyAudit_auditPath hdata
  rw [length_take_leavesOf hle, ← hissued.logRoot] at hverify
  exact hverify

open SparseMap in
/-- **Under the map root of a head** that the log has issued it answers by the map of the pairs that the
head is over, with a proof that shows it. -/
theorem Sound.mapValue_eq (h : Sound signer log pairs heads roots) (hmem : head ∈ heads)
    (hinj : Set.InjOn sha256 (insert key (versionInputs (versionsOf pairs))))
    (hzero : ¬ HashesToZero (mapOf (pairs.take head.treeSize.toNat))[key]?) :
    head.mapRoot = keyedRoot (mapOf (pairs.take head.treeSize.toNat)) ∧
      ∃ siblings, siblings.length = height ∧
        verify siblings head.mapRoot key (mapOf (pairs.take head.treeSize.toNat))[key]? = true ∧
        Ledger.mapValue log.store key head.mapRoot =
          .ok ((mapOf (pairs.take head.treeSize.toNat))[key]?, siblings) := by
  have hversions := hinj.mono (Set.subset_insert key _)
  have holds := holds_of_reaches hversions h.tracks.map (Set.Subset.refl _)
  obtain ⟨hissued, hle⟩ := h.issuedAt hmem
  have hmap := getElem?_versionsOf hle
  have hroot := holds.root_eq hissued.mapRoot hmap
  have hversion := List.mem_of_getElem? hmap
  have apart := apart_of_injOn hinj
    ((keyedInputs_subset_versionInputs hversion).trans (Set.subset_insert key _))
    (Set.mem_insert key _)
  have hget := holds.get_eq hversions hversion apart fun value hvalue heq => hzero ⟨value, hvalue, heq⟩
  obtain ⟨siblings, hprove, hlen, hverify⟩ := holds.prove_eq hversions hversion apart
  rw [Draft.get?_base] at hget hprove
  refine ⟨hroot, siblings, hlen, ?_, ?_⟩ <;> rw [hroot]
  · exact hverify
  · exact mapValue_of_get hget hprove

end Answers

end SharedLog

/-! ## Runs -/

/-- A head that was given out, with the pairs recorded by then. -/
structure Issue where
  head : TreeHead
  pairs : List Record

/-- Later heads are over more pairs, and each is over as many as were recorded by then. -/
structure Issue.InOrder (pairs : List Record) (issued : List Issue) : Prop where
  growing : issued.Pairwise fun before after => before.pairs <+: after.pairs
  recorded : ∀ issue ∈ issued, issue.pairs <+: pairs
  sized : ∀ issue ∈ issued, issue.head.treeSize.toNat = issue.pairs.length

theorem Issue.InOrder.take_eq {pairs : List Record} {issued : List Issue} (h : Issue.InOrder pairs issued)
    {issue : Issue} (hmem : issue ∈ issued) :
    pairs.take issue.head.treeSize.toNat = issue.pairs := by
  rw [h.sized issue hmem]
  exact (List.prefix_iff_eq_take.mp (h.recorded issue hmem)).symm

/-- Of two heads that were given out, the later one is over at least the pairs of the other. -/
theorem Issue.InOrder.prefix_of_le {pairs : List Record} {issued : List Issue}
    (h : Issue.InOrder pairs issued) {i j : Nat} (hle : i ≤ j) {a b : Issue} (hi : issued[i]? = some a)
    (hj : issued[j]? = some b) : a.pairs <+: b.pairs := by
  obtain ⟨hi', rfl⟩ := List.getElem?_eq_some_iff.mp hi
  obtain ⟨hj', rfl⟩ := List.getElem?_eq_some_iff.mp hj
  rcases Nat.eq_or_lt_of_le hle with rfl | hlt
  · exact List.prefix_rfl
  · exact List.pairwise_iff_getElem.mp h.growing i j hi' hj' hlt

theorem Issue.inOrder_nil : Issue.InOrder [] [] where
  growing := .nil
  recorded _ hissue := absurd hissue List.not_mem_nil
  sized _ hissue := absurd hissue List.not_mem_nil

theorem Issue.InOrder.concat {pairs : List Record} {issued : List Issue} (h : Issue.InOrder pairs issued)
    (items : List Record) {head : TreeHead} (hsize : head.treeSize.toNat = (pairs ++ items).length) :
    Issue.InOrder (pairs ++ items) (issued ++ [⟨head, pairs ++ items⟩]) := by
  have hrecorded : ∀ issue ∈ issued, issue.pairs <+: pairs ++ items := fun issue hissue =>
    (h.recorded issue hissue).trans (List.prefix_append pairs items)
  refine ⟨List.pairwise_append.mpr ⟨h.growing, List.pairwise_singleton _ _, ?_⟩, ?_, ?_⟩
  · intro before hbefore after hafter
    rw [List.mem_singleton.mp hafter]
    exact hrecorded before hbefore
  · exact List.forall_mem_append.mpr ⟨hrecorded, by simp⟩
  · exact List.forall_mem_append.mpr ⟨h.sized, by simpa using hsize⟩

namespace ServedLog

/-- The runs of a log, with the pairs it has accepted and every head that it has given out: it is opened
on a fresh store, batches are submitted to it, it is asked for its head, and it is opened again on the
store at hand or on what another process reads from its file. Something else may get in the way of the
scratch file at any time. The lengths in the store fit their 64 bits. -/
inductive Issues (name : String) (signer : Signer) : ServedLog → List Record → List Issue → Prop
  | opened {store store' : Store} {ledger : Ledger} (fresh : store.contents = ∅)
    (step : Ledger.resume name signer store = (.ok ledger, store')) (fits : store'.contents.Fits) :
    Issues name signer ⟨ledger, store'⟩ [] [⟨ledger.head, []⟩]
  | accepted {log : ServedLog} {pairs : List Record} {issued : List Issue}
    (before : Issues name signer log pairs issued) {items : List Record} {head : TreeHead}
    {ledger : Ledger} {store : Store}
    (step : log.ledger.submit log.store items = (.ok head, ledger, store))
    (fits : store.contents.Fits) :
    Issues name signer ⟨ledger, store⟩ (pairs ++ items) (issued ++ [⟨head, pairs ++ items⟩])
  | refused {log : ServedLog} {pairs : List Record} {issued : List Issue}
    (before : Issues name signer log pairs issued) {items : List Record} {error : LogError}
    {ledger : Ledger} {store : Store}
    (step : log.ledger.submit log.store items = (.error error, ledger, store)) :
    Issues name signer ⟨ledger, store⟩ pairs issued
  | shown {log : ServedLog} {pairs : List Record} {issued : List Issue}
    (before : Issues name signer log pairs issued) :
    Issues name signer log pairs (issued ++ [⟨log.ledger.head, pairs⟩])
  | reopened {log : ServedLog} {pairs : List Record} {issued : List Issue}
    (before : Issues name signer log pairs issued) {ledger : Ledger} {store : Store}
    (step : Ledger.resume name signer log.store = (.ok ledger, store)) :
    Issues name signer ⟨ledger, store⟩ pairs (issued ++ [⟨ledger.head, pairs⟩])
  | reloaded {log : ServedLog} {pairs : List Record} {issued : List Issue}
    (before : Issues name signer log pairs issued) {found store : Store} {ledger : Ledger}
    (reread : log.store.reread = .ok found)
    (step : Ledger.resume name signer found = (.ok ledger, store)) :
    Issues name signer ⟨ledger, store⟩ pairs (issued ++ [⟨ledger.head, pairs⟩])
  | obstructed {log : ServedLog} {pairs : List Record} {issued : List Issue}
    (before : Issues name signer log pairs issued) (slot : Slot) :
    Issues name signer ⟨log.ledger, log.store.withScratch slot⟩ pairs issued

section Runs

variable {name : String} {signer : Signer} {log : ServedLog} {pairs : List Record}
  {issued : List Issue}

/-- A head is given out once more, by a log with nothing left to be shown. -/
theorem inOrder_shown {ledger : Ledger} {store : Store} {heads : List TreeHead}
    (h : SharedLog.Reaches name signer ⟨ledger, store, []⟩ pairs heads)
    (order : Issue.InOrder pairs issued) :
    Issue.InOrder pairs (issued ++ [⟨ledger.head, pairs⟩]) ∧ ledger.head ∈ heads := by
  obtain ⟨roots, sound⟩ := SharedLog.sound_of_reaches h
  have hsize := sound.shown_treeSize rfl
  rw [← List.append_nil pairs] at hsize
  have hconcat := order.concat [] hsize
  rw [List.append_nil] at hconcat
  exact ⟨hconcat, sound.shown⟩

theorem heads_concat {heads : List TreeHead} (h : ∀ issue ∈ issued, issue.head ∈ heads)
    {head : TreeHead} : ∀ issue ∈ issued ++ [⟨head, pairs⟩], issue.head ∈ heads ++ [head] := by
  refine List.forall_mem_append.mpr ⟨fun issue hissue => ?_, by simp⟩
  exact List.mem_append_left _ (h issue hissue)

/-- **A log that takes one batch after the other** is one that shows every head at once. -/
theorem Issues.exists_shared (h : Issues name signer log pairs issued) : ∃ heads,
    SharedLog.Reaches name signer ⟨log.ledger, log.store, []⟩ pairs heads ∧
      Issue.InOrder pairs issued ∧ ∀ issue ∈ issued, issue.head ∈ heads := by
  induction h with
  | opened fresh step fits =>
    have reaches := SharedLog.Reaches.opened fresh step fits
    exact ⟨_, reaches, (inOrder_shown reaches Issue.inOrder_nil).1, by simp⟩
  | @accepted _ _ _ before items head _ _ step fits ih =>
    obtain ⟨heads, reaches, order, hmem⟩ := ih
    obtain ⟨roots, sound⟩ := SharedLog.sound_of_reaches reaches
    obtain ⟨hcommit, rfl⟩ := submit_eq_ok_iff.mp step
    have committed := reaches.next (.committed hcommit fits)
    have hfirst : ([] ++ [head])[0]? = some head := rfl
    have published := committed.quiet (.published hfirst)
    exact ⟨_, published, order.concat items (sound.commit hcommit fits).1, heads_concat hmem⟩
  | refused before step ih =>
    obtain ⟨heads, reaches, order, hmem⟩ := ih
    obtain ⟨hcommit, rfl⟩ := submit_eq_error_iff.mp step
    exact ⟨heads, reaches.quiet (.refused hcommit), order, hmem⟩
  | shown before ih =>
    obtain ⟨heads, reaches, order, hmem⟩ := ih
    obtain ⟨order', hshown⟩ := inOrder_shown reaches order
    exact ⟨heads, reaches, order', List.forall_mem_append.mpr ⟨hmem, by simpa using hshown⟩⟩
  | reopened before step ih =>
    obtain ⟨heads, reaches, order, hmem⟩ := ih
    have next := reaches.next (.reopened step)
    simp only [List.append_nil] at next
    exact ⟨_, next, (inOrder_shown next order).1, heads_concat hmem⟩
  | reloaded before reread step ih =>
    obtain ⟨heads, reaches, order, hmem⟩ := ih
    have next := reaches.next (.reloaded reread step)
    simp only [List.append_nil] at next
    exact ⟨_, next, (inOrder_shown next order).1, heads_concat hmem⟩
  | obstructed before slot ih =>
    obtain ⟨heads, reaches, order, hmem⟩ := ih
    exact ⟨heads, reaches.quiet (.obstructed slot), order, hmem⟩

/-! ## Service -/

/-- What a log has for two heads that it has given out: the proof that the second continues the first,
the root of the first, and each of its leaves, which is the record of its pair, with an audit path. -/
structure Proves (log : ServedLog) (a b : Issue) : Prop where
  consistency : ∃ proof,
    Ledger.consistencyProof log.store a.head.treeSize.toNat b.head.treeSize.toNat = .ok proof ∧
    Tree.verifyConsistency a.head.logRoot b.head.logRoot a.head.treeSize.toNat b.head.treeSize.toNat
      proof = true
  root : Ledger.rootAt log.store a.head.treeSize.toNat = .ok a.head.logRoot
  leaves : ∀ index < a.head.treeSize.toNat, ∃ pair data path, a.pairs[index]? = some pair ∧
    pair.encode = .ok data ∧ Ledger.entries log.store index index = .ok [data] ∧
    Ledger.auditProof log.store index a.head.treeSize.toNat = .ok path ∧
    Tree.verifyAudit a.head.logRoot a.head.treeSize.toNat index path data = true

/-- What a log has for a key under a head that it has given out: the entry that the key had by then, or
none if no pair had the key, with a proof that shows it. -/
def Recalls (log : ServedLog) (issue : Issue) (key : Bytes) : Prop :=
  ∃ found siblings, Ledger.mapValue log.store key issue.head.mapRoot = .ok (found, siblings) ∧
    SparseMap.verify siblings issue.head.mapRoot key found = true ∧
    (∀ (index : Nat) (value : Bytes), issue.pairs[index]? = some ⟨key, value⟩ →
      found = some (MapEntry.mk value (UInt64.ofNat index)).encode) ∧
    ((∀ pair ∈ issue.pairs, pair.key ≠ key) → found = none)

section Service

variable {heads : List TreeHead} {roots : List Digest} {a b : Issue} {key : Bytes}
  (h : SharedLog.Sound signer ⟨log.ledger, log.store, []⟩ pairs heads roots)
  (order : Issue.InOrder pairs issued) (ha : a ∈ issued) (hmem : a.head ∈ heads)

include h order ha hmem

/-- **The log's side of a head**, whatever has been recorded behind it. -/
theorem proves_of_sound (hmem' : b.head ∈ heads) (hle : a.head.treeSize ≤ b.head.treeSize) :
    log.Proves a b where
  consistency := ⟨_, h.consistencyProof_eq (UInt64.le_iff_toNat_le.mp hle) (h.issuedAt hmem').2,
    h.verify_prefixProof hmem hmem' hle⟩
  root := h.rootAt_eq hmem
  leaves index hindex := by
    have hle := (h.issuedAt hmem).2
    have hlt : index < pairs.length := by omega
    obtain ⟨hkey, hvalue, -⟩ := Record.field_lengths (h.tracks.fits _ (List.getElem_mem hlt))
    have hpair : pairs[index]? = some pairs[index] := List.getElem?_eq_getElem hlt
    have hentry := h.entries_eq (Nat.le_refl index) hlt
    have hone : (pairs.drop index).take (index - index + 1) = [pairs[index]] := by
      rw [Nat.sub_self, List.drop_eq_getElem_cons hlt]
      rfl
    rw [hone] at hentry
    refine ⟨pairs[index], _, _, ?_, Record.encode_eq hkey hvalue, hentry,
      h.auditProof_eq hindex hle, h.verify_auditPath hmem hpair hindex⟩
    rw [← order.take_eq ha, List.getElem?_take_of_lt hindex]
    exact hpair

/-- **The map's side of a head**, if nothing collides. -/
theorem recalls_of_sound (hinj : Set.InjOn sha256 (insert key (hashed pairs)))
    (hzero : ∀ entry ∈ entriesOf pairs, sha256 entry.2 ≠ Digest.zero)
    (hnodup : (pairs.map Record.key).Nodup) : log.Recalls a key := by
  have hsub := versionInputs_subset_hashed (hinj.mono (Set.subset_insert key _)) hnodup
  have hnonzero : ¬ SparseMap.HashesToZero (mapOf (pairs.take a.head.treeSize.toNat))[key]? := by
    rw [order.take_eq ha]
    rintro ⟨value, hvalue, heq⟩
    obtain ⟨rest, rfl⟩ := order.recorded a ha
    exact hzero _ (entriesOf_append a.pairs rest (mem_entriesOf_of_mapOf hvalue)) heq
  obtain ⟨-, siblings, -, hverify, hvalue⟩ :=
    h.mapValue_eq hmem (hinj.mono (Set.insert_subset_insert hsub)) hnonzero
  rw [order.take_eq ha] at hverify hvalue
  refine ⟨_, siblings, hvalue, hverify, fun index value hpair => ?_, mapOf_eq_none⟩
  exact mapOf_eq_some (hnodup.sublist ((order.recorded a ha).sublist.map _)) hpair

end Service

/-- **Every head that was issued stays good.** Whatever has been done with a log since, it proves of any
two heads that it has given out that the later continues the earlier, it has the root and the leaves of
the earlier with their audit paths, and for every key the entry that the key had by then. For entries the
ways out are a collision among the key and the strings hashed for the pairs, and an entry that hashes to
the 32 zero bytes of an absent one. -/
theorem issued_serviceable (h : Issues name signer log pairs issued) {i j : Nat} (hle : i ≤ j)
    {a b : Issue} (hi : issued[i]? = some a) (hj : issued[j]? = some b) :
    log.Proves a b ∧ ∀ key, log.Recalls a key ∨
      CollisionBetween (insert key (hashed pairs)) (insert key (hashed pairs)) ∨
      ∃ entry ∈ entriesOf pairs, sha256 entry.2 = Digest.zero := by
  obtain ⟨heads, reaches, order, hmem⟩ := h.exists_shared
  obtain ⟨roots, sound⟩ := SharedLog.sound_of_reaches reaches
  have ha := List.mem_of_getElem? hi
  have hb := List.mem_of_getElem? hj
  have hsize : a.head.treeSize ≤ b.head.treeSize := by
    rw [UInt64.le_iff_toNat_le, order.sized a ha, order.sized b hb]
    exact (order.prefix_of_le hle hi hj).length_le
  refine ⟨proves_of_sound sound order ha (hmem a ha) (hmem b hb) hsize, fun key => ?_⟩
  refine (injOn_or_ambiguous (insert key (hashed pairs)) pairs).imp_left fun ⟨hinj, hnonzero⟩ => ?_
  obtain ⟨_, hheads⟩ :=
    SharedLog.heads_of_reaches reaches ⟨hinj.mono (Set.subset_insert key _), hnonzero⟩
  exact recalls_of_sound sound order ha (hmem a ha) hinj hnonzero hheads.recorded.nodup

/-- A log in memory is given two pairs, one after the other. At the head over the first pair it has that
pair, and not yet the second one. -/
theorem issued_serviceable_two_batches : ∃ (log : ServedLog) (genesis one two : TreeHead),
    Issues "log" Signer.mirror log [⟨[1], [5]⟩, ⟨[2], [6]⟩]
      [⟨genesis, []⟩, ⟨one, [⟨[1], [5]⟩]⟩, ⟨two, [⟨[1], [5]⟩, ⟨[2], [6]⟩]⟩] ∧
    one.treeSize.toNat = 1 ∧ two.treeSize.toNat = 2 ∧
    log.Proves ⟨one, [⟨[1], [5]⟩]⟩ ⟨two, [⟨[1], [5]⟩, ⟨[2], [6]⟩]⟩ ∧
    (log.Recalls ⟨one, [⟨[1], [5]⟩]⟩ [1] ∧ log.Recalls ⟨one, [⟨[1], [5]⟩]⟩ [2] ∨
      ∃ key : Bytes, CollisionBetween (insert key (hashed [⟨[1], [5]⟩, ⟨[2], [6]⟩]))
        (insert key (hashed [⟨[1], [5]⟩, ⟨[2], [6]⟩]))) := by
  obtain ⟨g⟩ := exists_grown_one_two "log" (show Store.inMemory.contents = ∅ from rfl)
    Store.clear_inMemory
  have opened : Issues "log" Signer.mirror ⟨⟨"log", Signer.mirror, g.genesis⟩, g.opened⟩ []
      [⟨g.genesis, []⟩] := .opened rfl g.resume_eq g.fits
  have first := opened.accepted g.submit_one g.fits_one
  have second := first.accepted g.submit_two g.fits_two
  obtain ⟨hproves, hrecalls⟩ := issued_serviceable second (show 1 ≤ 2 by decide) rfl rfl
  refine ⟨_, g.genesis, g.one, g.two, second, g.standing_one.treeSize, g.standing_two.treeSize,
    hproves, ?_⟩
  have hnonzero : ¬ ∃ entry ∈ entriesOf ([] ++ [⟨[1], [5]⟩] ++ [⟨[2], [6]⟩]),
      sha256 entry.2 = Digest.zero := fun ⟨entry, hentry, hzero⟩ => nonzero_one_two entry hentry hzero
  rcases hrecalls [1] with hone | hcol | hzero
  · rcases hrecalls [2] with htwo | hcol | hzero
    · exact Or.inl ⟨hone, htwo⟩
    · exact Or.inr ⟨_, hcol⟩
    · exact absurd hzero hnonzero
  · exact Or.inr ⟨_, hcol⟩
  · exact absurd hzero hnonzero

end Runs

end ServedLog

end TransparencyLog
