import TransparencyLog.Api
import TransparencyLog.Proofs.Ledger.Tracked
import TransparencyLog.Proofs.Tree.Paths

/-!
# A log with several submissions at once

A submission takes effect in two steps: its transaction is committed, and then its head is shown. In
between other submissions may commit, and heads may come to be shown in another order than they were
committed in. Every head that is ever issued is the signed head over the first pairs of one growing
list, so there is one for each size; none is shown after a larger one.

* `SharedLog`, `SharedLog.Step`, `SharedLog.Reaches`: the steps of a log and its runs, with the pairs
  committed and the heads issued;
* `SharedLog.Sound`: what holds between the steps, a lemma for every kind of step, and
  **`SharedLog.sound_of_reaches`** for whole runs;
* **`SharedLog.Sound.shown_le`**: the head shown never becomes smaller;
* `SharedLog.Sound.stored_of_idle`: the stored head, once every head has been shown;
* `SharedLog.Reaches.submit`: a submission that nothing comes between;
* `SharedLog.heads_of_reaches`: the pairs have different keys, unless a collision hides one;
* `SharedLog.Sound.consistencyProof_eq`: proofs between heads.
-/

namespace TransparencyLog

open Ledger

/-- A log with the heads that are committed and still to be shown. -/
structure SharedLog where
  ledger : Ledger
  store : Store
  pending : List TreeHead := []

namespace SharedLog

/-- The log as those who ask it see it. -/
def served (log : SharedLog) : ServedLog := ⟨log.ledger, log.store⟩

/-! ## Runs -/

/-- One step of a log, with the pairs that it commits and the heads that it issues. A batch is committed
or refused; a head that is committed is shown, in any order; the store is opened again, at hand or as
another process reads it from its file, and then nothing is left to be shown. Something else may get in
the way of the scratch file. The lengths in the store fit their 64 bits. -/
inductive Step (name : String) (signer : Signer) :
    SharedLog → List Record → List TreeHead → SharedLog → Prop
  | committed {log : SharedLog} {items : List Record} {head : TreeHead} {store : Store}
    (step : Ledger.commit log.ledger.signer log.store items = (.ok head, store))
    (fits : store.contents.Fits) :
    Step name signer log items [head] ⟨log.ledger, store, log.pending ++ [head]⟩
  | refused {log : SharedLog} {items : List Record} {error : LogError} {store : Store}
    (step : Ledger.commit log.ledger.signer log.store items = (.error error, store)) :
    Step name signer log [] [] ⟨log.ledger, store, log.pending⟩
  | published {log : SharedLog} {index : Nat} {head : TreeHead}
    (found : log.pending[index]? = some head) :
    Step name signer log [] [] ⟨log.ledger.publish head, log.store, log.pending.eraseIdx index⟩
  | reopened {log : SharedLog} {ledger : Ledger} {store : Store}
    (step : Ledger.resume name signer log.store = (.ok ledger, store)) :
    Step name signer log [] [ledger.head] ⟨ledger, store, []⟩
  | reloaded {log : SharedLog} {found store : Store} {ledger : Ledger}
    (reread : log.store.reread = .ok found)
    (step : Ledger.resume name signer found = (.ok ledger, store)) :
    Step name signer log [] [ledger.head] ⟨ledger, store, []⟩
  | obstructed {log : SharedLog} (slot : Slot) :
    Step name signer log [] [] ⟨log.ledger, log.store.withScratch slot, log.pending⟩

/-- What a log can become that is opened on a fresh store, with the pairs committed so far and the heads
issued so far. -/
inductive Reaches (name : String) (signer : Signer) :
    SharedLog → List Record → List TreeHead → Prop
  | opened {store store' : Store} {ledger : Ledger} (fresh : store.contents = ∅)
    (step : Ledger.resume name signer store = (.ok ledger, store')) (fits : store'.contents.Fits) :
    Reaches name signer ⟨ledger, store', []⟩ [] [ledger.head]
  | next {log log' : SharedLog} {pairs items : List Record} {heads issued : List TreeHead}
    (before : Reaches name signer log pairs heads) (step : Step name signer log items issued log') :
    Reaches name signer log' (pairs ++ items) (heads ++ issued)

/-! ## What holds between steps -/

/-- The store is in step with its file and tracks the pairs. The stored head is the one over all of
them, and it is shown or still to be shown. Every head that was issued is the one over the first pairs,
and only such heads are shown or to be shown. -/
structure Sound (signer : Signer) (log : SharedLog) (pairs : List Record) (heads : List TreeHead)
    (roots : List Digest) : Prop where
  kept : log.store.Kept
  fits : log.store.contents.Fits
  signer_eq : log.ledger.signer = signer
  tracks : Tracks ⟨log.store.contents, ∅⟩ pairs roots
  latest : ∃ head, log.store.contents.snapshot headAddress = some head.encode ∧
    IssuedAt signer pairs roots pairs.length head ∧ (head = log.ledger.head ∨ head ∈ log.pending)
  issued : ∀ head ∈ heads, ∃ size, IssuedAt signer pairs roots size head
  shown : log.ledger.head ∈ heads
  pending : log.pending ⊆ heads

section Sound

variable {name : String} {signer : Signer} {log log' : SharedLog} {pairs items : List Record}
  {heads issued : List TreeHead} {roots : List Digest}

theorem Sound.holds (h : Sound signer log pairs heads roots) :
    Tree.Holds log.store.contents.snapshot (leavesOf pairs) := by
  rw [← Draft.get?_base]
  exact h.tracks.log

theorem Sound.length_lt (h : Sound signer log pairs heads roots) : pairs.length < UInt64.size := by
  have hle := h.holds.length_le_size
  rw [length_leavesOf] at hle
  exact Nat.lt_of_le_of_lt hle h.fits.size_lt

/-- The stored head has the size of the list and the last of the map's roots. -/
theorem Sound.stored (h : Sound signer log pairs heads roots) :
    ∃ head, storedHead log.store.contents.snapshot = .ok head ∧
      head.treeSize.toNat = pairs.length ∧ IssuedAt signer pairs roots pairs.length head := by
  obtain ⟨head, hstored, hissued, -⟩ := h.latest
  exact ⟨head, (storedHead_of_fits h.fits hstored).2, hissued.toNat_treeSize h.length_lt, hissued⟩

theorem Sound.storedLog_eq (h : Sound signer log pairs heads roots) :
    storedLog log.store.contents.snapshot = .ok ⟨pairs.length⟩ := by
  obtain ⟨head, hstored, hsize, -⟩ := h.stored
  rw [storedLog, hstored, ← hsize]
  rfl

/-- **With nothing left to be shown**, the stored head is the one shown. -/
theorem Sound.stored_of_idle (h : Sound signer log pairs heads roots) (idle : log.pending = []) :
    storedHead log.store.contents.snapshot = .ok log.ledger.head := by
  obtain ⟨head, hstored, -, rfl | hpending⟩ := h.latest
  · exact (storedHead_of_fits h.fits hstored).2
  · rw [idle] at hpending
    cases hpending

theorem Sound.shown_treeSize (h : Sound signer log pairs heads roots) (idle : log.pending = []) :
    log.ledger.head.treeSize.toNat = pairs.length := by
  obtain ⟨head, hstored, hsize, -⟩ := h.stored
  rw [Except.ok.inj ((h.stored_of_idle idle).symm.trans hstored)]
  exact hsize

/-- A head that was issued is the one of its size, which is at most that of the list. -/
theorem Sound.issuedAt (h : Sound signer log pairs heads roots) {head : TreeHead}
    (hmem : head ∈ heads) : IssuedAt signer pairs roots head.treeSize.toNat head ∧
      head.treeSize.toNat ≤ pairs.length := by
  obtain ⟨size, hissued⟩ := h.issued head hmem
  rw [hissued.toNat_treeSize h.length_lt]
  exact ⟨hissued, hissued.1⟩

/-- **Heads that were issued** with one size are one head. -/
theorem Sound.eq_of_treeSize (h : Sound signer log pairs heads roots) {head head' : TreeHead}
    (hmem : head ∈ heads) (hmem' : head' ∈ heads) (hsize : head.treeSize = head'.treeSize) :
    head = head' := by
  have hissued := (h.issuedAt hmem).1
  rw [hsize] at hissued
  exact hissued.unique (h.issuedAt hmem').1

/-- Another store that is in step with its file and has the same contents is as good. -/
theorem Sound.congr (h : Sound signer log pairs heads roots) {store : Store} (kept : store.Kept)
    (same : store.contents = log.store.contents) :
    Sound signer ⟨log.ledger, store, log.pending⟩ pairs heads roots where
  kept := kept
  fits := same ▸ h.fits
  signer_eq := h.signer_eq
  tracks := same ▸ h.tracks
  latest := same ▸ h.latest
  issued := h.issued
  shown := h.shown
  pending := h.pending

/-! ## Steps -/

/-- **A log that is opened** on a fresh store. -/
theorem sound_of_opened {store store' : Store} {ledger : Ledger} (fresh : store.contents = ∅)
    (step : Ledger.resume name signer store = (.ok ledger, store')) (fits : store'.contents.Fits) :
    Sound signer ⟨ledger, store', []⟩ [] [ledger.head] [SparseMap.emptyRoot] := by
  rcases resume_fresh name signer fresh with
    ⟨genesis, contents, hgenesis, hheads, hresume⟩ | ⟨error, after, hresume, -⟩
  · rw [hresume] at step
    cases step
    have hissued : IssuedAt signer [] [SparseMap.emptyRoot] 0 genesis := by
      refine ⟨Nat.le_refl _, SparseMap.emptyRoot, rfl, ?_⟩
      rw [headOver_nil] at hgenesis
      rw [List.take_nil, leavesOf, List.map_nil, Tree.rootOf_nil]
      exact hgenesis
    refine ⟨Store.kept_written _ _, fits, rfl, tracks_begun ⟨contents, _⟩,
      ⟨genesis, hheads.stored, hissued, Or.inl rfl⟩, ?_, List.mem_singleton_self _,
      List.nil_subset _⟩
    intro head hhead
    rw [List.mem_singleton.mp hhead]
    exact ⟨0, hissued⟩
  · rw [hresume] at step
    cases step

/-- **A batch that is committed** is recorded behind the others, and its head is still to be shown. -/
theorem Sound.commit (h : Sound signer log pairs heads roots) {head : TreeHead} {store : Store}
    (step : Ledger.commit log.ledger.signer log.store items = (.ok head, store))
    (fits : store.contents.Fits) : head.treeSize.toNat = (pairs ++ items).length ∧ ∃ later,
      Sound signer ⟨log.ledger, store, log.pending ++ [head]⟩ (pairs ++ items) (heads ++ [head])
        (roots ++ later) := by
  rw [h.signer_eq] at step
  obtain ⟨draft, hrun, rfl⟩ := exists_of_commit step
  obtain ⟨before, hstored, hsize, hbefore⟩ := h.stored
  have hhead : storedHead (Draft.get? ⟨log.store.contents, ∅⟩) = .ok before := by
    rw [Draft.get?_base]
    exact hstored
  obtain ⟨later, htracks, hissued, hread⟩ := h.tracks.record hhead hsize hbefore.mapRoot hrun
  have hsnapshot : draft.merged.snapshot headAddress = some head.encode :=
    (draft.getElem?_merged headAddress).trans hread
  suffices sound : Sound signer ⟨log.ledger, _, log.pending ++ [head]⟩ (pairs ++ items)
      (heads ++ [head]) (roots ++ later) from
    ⟨hissued.toNat_treeSize sound.length_lt, later, sound⟩
  refine ⟨Store.kept_written _ _, fits, h.signer_eq, htracks.committed,
    ⟨head, hsnapshot, hissued, Or.inr ?_⟩, ?_, ?_, ?_⟩
  · exact List.mem_append_right _ (List.mem_singleton_self _)
  · intro other hother
    rcases List.mem_append.mp hother with hmem | hmem
    · obtain ⟨size, hold⟩ := h.issued other hmem
      exact ⟨size, hold.append items later⟩
    · rw [List.mem_singleton.mp hmem]
      exact ⟨_, hissued⟩
  · exact List.mem_append_left _ h.shown
  · exact List.append_subset.mpr
      ⟨fun _ hmem => List.mem_append_left _ (h.pending hmem), List.subset_append_right _ _⟩

/-- **A batch of no pairs** commits the stored head once more, and the contents are what they were. -/
theorem Sound.commit_nil (h : Sound signer log pairs heads roots) (signs : signer.canSign = true)
    (clear : log.store.Clear) : ∃ head store', head ∈ heads ∧
      storedHead log.store.contents.snapshot = .ok head ∧
      Ledger.commit log.ledger.signer log.store [] = (.ok head, store') ∧
      store'.contents = log.store.contents := by
  obtain ⟨head, hstored, hlast, hwhere⟩ := h.latest
  have hmem : head ∈ heads := by
    rcases hwhere with rfl | hpending
    · exact h.shown
    · exact h.pending hpending
  have hread := (storedHead_of_fits h.fits hstored).2
  have hhead : storedHead (Draft.get? ⟨log.store.contents, ∅⟩) = .ok head := by
    rw [Draft.get?_base]
    exact hread
  have hrecord := h.tracks.record_nil hhead (hlast.toNat_treeSize h.length_lt) hlast
  have hcheck : checkBatch signer [] = .ok () := checkBatch_of_canSign signs []
  have hupdate := Store.update_of_clear clear hrecord (Store.isEmpty_pending_set _ _ _ _)
  rw [Draft.merged_set_of_stored hstored] at hupdate
  refine ⟨head, ⟨_, Store.written log.store.medium log.store.contents⟩, hmem, hread, ?_, rfl⟩
  rw [h.signer_eq, Ledger.commit, hcheck]
  exact hupdate

/-- The last head is shown once it is published, and it stays. -/
theorem Sound.latest_publish (h : Sound signer log pairs heads roots) {last head : TreeHead}
    (hlast : IssuedAt signer pairs roots pairs.length last) {index : Nat}
    (found : log.pending[index]? = some head) (hwhere : last = log.ledger.head ∨ last ∈ log.pending) :
    last = (log.ledger.publish head).head ∨ last ∈ log.pending.eraseIdx index := by
  have hmem := h.pending (List.mem_of_getElem? found)
  have hle : ∀ other ∈ heads, other.treeSize ≤ last.treeSize := by
    intro other hother
    rw [UInt64.le_iff_toNat_le, hlast.toNat_treeSize h.length_lt]
    exact (h.issuedAt hother).2
  by_cases heq : last = head
  · subst heq
    rw [publish_of_le (hle _ h.shown)]
    exact Or.inl rfl
  rcases hwhere with rfl | hpending
  · -- No other head is as large as the one shown.
    rcases publish_cases log.ledger head with ⟨hshown, -⟩ | ⟨-, hsame⟩
    · have hsize := UInt64.le_antisymm hshown (hle head hmem)
      exact absurd (h.eq_of_treeSize h.shown hmem hsize) heq
    · rw [hsame]
      exact Or.inl rfl
  · obtain ⟨other, hother⟩ := List.getElem?_of_mem hpending
    refine Or.inr (List.mem_eraseIdx_iff_getElem?.mpr ⟨other, ?_, hother⟩)
    rintro rfl
    exact heq (Option.some.inj (hother.symm.trans found))

/-- **A head that is committed** is shown, unless one is shown that is larger. -/
theorem Sound.publish (h : Sound signer log pairs heads roots) {index : Nat} {head : TreeHead}
    (found : log.pending[index]? = some head) :
    Sound signer ⟨log.ledger.publish head, log.store, log.pending.eraseIdx index⟩ pairs heads
      roots := by
  have hmem := h.pending (List.mem_of_getElem? found)
  obtain ⟨last, hstored, hlast, hwhere⟩ := h.latest
  have hlatest := h.latest_publish hlast found hwhere
  have hpending : log.pending.eraseIdx index ⊆ heads :=
    fun _ hother => h.pending (List.mem_of_mem_eraseIdx hother)
  rcases publish_cases log.ledger head with ⟨-, heq⟩ | ⟨-, heq⟩
  · rw [heq] at hlatest ⊢
    exact ⟨h.kept, h.fits, h.signer_eq, h.tracks, ⟨last, hstored, hlast, hlatest⟩, h.issued, hmem,
      hpending⟩
  · rw [heq] at hlatest ⊢
    exact ⟨h.kept, h.fits, h.signer_eq, h.tracks, ⟨last, hstored, hlast, hlatest⟩, h.issued, h.shown,
      hpending⟩

/-- **A log that is opened again** shows the stored head. -/
theorem Sound.reopen (h : Sound signer log pairs heads roots) {ledger : Ledger} {store : Store}
    (step : Ledger.resume name signer log.store = (.ok ledger, store)) :
    Sound signer ⟨ledger, store, []⟩ pairs (heads ++ [ledger.head]) roots ∧
      ledger.head.treeSize.toNat = pairs.length := by
  obtain ⟨head, hstored, hlast, -⟩ := h.latest
  obtain ⟨rfl, rfl⟩ := of_resume_stored name signer (storedHead_of_fits h.fits hstored).2 step
  refine ⟨⟨h.kept, h.fits, rfl, h.tracks, ⟨head, hstored, hlast, Or.inl rfl⟩, ?_, ?_,
    List.nil_subset _⟩, hlast.toNat_treeSize h.length_lt⟩
  · intro other hother
    rcases List.mem_append.mp hother with hmem | hmem
    · exact h.issued other hmem
    · rw [List.mem_singleton.mp hmem]
      exact ⟨_, hlast⟩
  · exact List.mem_append_right _ (List.mem_singleton_self _)

/-- **Every step** leaves the log sound. -/
theorem Sound.step (h : Sound signer log pairs heads roots)
    (step : Step name signer log items issued log') :
    ∃ later, Sound signer log' (pairs ++ items) (heads ++ issued) (roots ++ later) := by
  cases step with
  | committed step fits => exact (h.commit step fits).2
  | refused step =>
    refine ⟨[], ?_⟩
    have halike := alike_of_commit_error step
    simp only [List.append_nil]
    exact h.congr (h.kept.alike halike) halike.contents
  | published found =>
    refine ⟨[], ?_⟩
    simp only [List.append_nil]
    exact h.publish found
  | reopened step =>
    refine ⟨[], ?_⟩
    simp only [List.append_nil]
    exact (h.reopen step).1
  | reloaded reread step =>
    rw [Store.reread_eq h.kept h.fits] at reread
    obtain rfl := Except.ok.inj reread
    refine ⟨[], ?_⟩
    simp only [List.append_nil]
    exact (h.reopen step).1
  | obstructed slot =>
    refine ⟨[], ?_⟩
    simp only [List.append_nil]
    exact h.congr (h.kept.withScratch slot) (log.store.contents_withScratch slot)

/-- **The head shown never becomes smaller.** -/
theorem Sound.shown_le (h : Sound signer log pairs heads roots)
    (step : Step name signer log items issued log') :
    log.ledger.head.treeSize ≤ log'.ledger.head.treeSize := by
  have hshown := (h.issuedAt h.shown).2
  cases step with
  | committed step fits => exact UInt64.le_refl _
  | refused step => exact UInt64.le_refl _
  | @published index head found =>
    rcases publish_cases log.ledger head with ⟨hle, heq⟩ | ⟨-, heq⟩
    · rw [heq]
      exact hle
    · rw [heq]
      exact UInt64.le_refl _
  | reopened step =>
    rw [UInt64.le_iff_toNat_le, (h.reopen step).2]
    exact hshown
  | reloaded reread step =>
    rw [Store.reread_eq h.kept h.fits] at reread
    obtain rfl := Except.ok.inj reread
    rw [UInt64.le_iff_toNat_le, (h.reopen step).2]
    exact hshown
  | obstructed slot => exact UInt64.le_refl _

theorem Reaches.quiet (h : Reaches name signer log pairs heads) (step : Step name signer log [] [] log') :
    Reaches name signer log' pairs heads := by
  simpa only [List.append_nil] using h.next step

/-- **Every run** leaves the log sound. -/
theorem sound_of_reaches (h : Reaches name signer log pairs heads) :
    ∃ roots, Sound signer log pairs heads roots := by
  induction h with
  | opened fresh step fits => exact ⟨_, sound_of_opened fresh step fits⟩
  | next before step ih =>
    obtain ⟨roots, sound⟩ := ih
    obtain ⟨later, after⟩ := sound.step step
    exact ⟨_, after⟩

/-- **A batch that is accepted** while nothing is left to be shown is committed, and its head is shown. -/
theorem Reaches.submit {ledger ledger' : Ledger} {store store' : Store} {head : TreeHead}
    {items : List Record} (h : Reaches name signer ⟨ledger, store, []⟩ pairs heads)
    (hsubmit : ledger.submit store items = (.ok head, ledger', store'))
    (fits : store'.contents.Fits) :
    Reaches name signer ⟨ledger', store', []⟩ (pairs ++ items) (heads ++ [head]) ∧
      ledger'.head = head := by
  obtain ⟨hcommit, rfl⟩ := submit_eq_ok_iff.mp hsubmit
  obtain ⟨roots, sound⟩ := sound_of_reaches h
  have hcommitted := h.next (.committed hcommit fits)
  have hpending : (SharedLog.pending ⟨ledger, store', [head]⟩)[0]? = some head := rfl
  refine ⟨hcommitted.quiet (.published hpending), ?_⟩
  have hle : ledger.head.treeSize ≤ head.treeSize := by
    rw [UInt64.le_iff_toNat_le, sound.shown_treeSize rfl, (sound.commit hcommit fits).1,
      List.length_append]
    exact Nat.le_add_right _ _
  rw [publish_of_le hle]

/-- **With different keys**: as long as no collision hides a key that is recorded already, the pairs are
recorded under the stored head. -/
theorem heads_of_reaches (h : Reaches name signer log pairs heads) (hun : Unambiguous pairs) :
    ∃ head, Heads log.store.contents pairs head := by
  induction h with
  | opened fresh step fits =>
    rcases resume_fresh name signer fresh with
      ⟨genesis, contents, -, hheads, hresume⟩ | ⟨error, after, hresume, -⟩
    · cases hresume.symm.trans step
      exact ⟨genesis, hheads⟩
    · cases hresume.symm.trans step
  | next before step ih =>
    obtain ⟨head, hheads⟩ := ih hun.of_append
    obtain ⟨roots, sound⟩ := sound_of_reaches before
    have hstored := hheads.storedHead_eq sound.fits
    cases step with
    | committed step fits =>
      have hsubmit := submit_eq_ok_iff.mpr ⟨step, rfl⟩
      obtain ⟨-, -, hnext, -⟩ := accepted_of_submit hheads sound.fits hun.of_append
        (hun.injective.mono (hashedBy_subset _ _)) hsubmit
      exact ⟨_, hnext⟩
    | refused step =>
      simp only [List.append_nil, (alike_of_commit_error step).contents]
      exact ⟨head, hheads⟩
    | published found =>
      simp only [List.append_nil]
      exact ⟨head, hheads⟩
    | reopened step =>
      obtain ⟨-, rfl⟩ := of_resume_stored name signer hstored step
      simp only [List.append_nil]
      exact ⟨head, hheads⟩
    | reloaded reread step =>
      obtain rfl := Except.ok.inj ((Store.reread_eq sound.kept sound.fits).symm.trans reread)
      obtain ⟨-, rfl⟩ := of_resume_stored name signer hstored step
      simp only [List.append_nil]
      exact ⟨head, hheads⟩
    | obstructed slot =>
      simp only [List.append_nil, Store.contents_withScratch]
      exact ⟨head, hheads⟩

/-! ## Proofs between heads -/

/-- **Between any two sizes** up to that of the list, the log has the proof. -/
theorem Sound.consistencyProof_eq (h : Sound signer log pairs heads roots) {first second : Nat}
    (hfirst : first ≤ second) (hsecond : second ≤ pairs.length) :
    Ledger.consistencyProof log.store first second =
      .ok (Tree.prefixProof first ((leavesOf pairs).take second)) := by
  rw [Ledger.consistencyProof, Store.view, h.storedLog_eq]
  exact Tree.consistencyProof_eq h.holds hfirst hsecond (by rw [length_leavesOf]; exact hsecond)

theorem Sound.read_consistency (h : Sound signer log pairs heads roots) {first second : UInt64}
    (hfirst : first ≤ second) (hsecond : second.toNat ≤ pairs.length) :
    log.served.read (.consistency first second) =
      .ok (Tree.prefixProof first.toNat ((leavesOf pairs).take second.toNat)) := by
  have hproof := h.consistencyProof_eq (UInt64.le_iff_toNat_le.mp hfirst) hsecond
  simp only [ServedLog.read, ServedLog.answer, served, hproof]

end Sound

end SharedLog

end TransparencyLog
