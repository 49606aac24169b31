import TransparencyLog.Proofs.Ledger.Issued

/-!
# Heads are shown in order

While a log is open, any number of submissions run at once. Each of them commits its batch in one step
and shows its head in another, after the store is free again, so that heads come to be shown in any order,
or not for long, or not at all if a larger one is shown already. Batches of no pairs bring heads of a size
that there is already; these are the same heads.

* `Batch`, `SharedLog.Lives`: what becomes of an open log, with the batches that are committed;
* `SharedLog.Lives.reaches`, `SharedLog.Lives.origin`: where its heads come from;
* `Batch.Placed`, **`SharedLog.Lives.placed`**: every batch has indices of its own;
* **`SharedLog.Lives.shown_le`**: the head shown never becomes smaller;
* `SharedLog.Consistent`, **`SharedLog.submissions_consistent`**: all of it, for every interleaving.
-/

namespace TransparencyLog

open Ledger

/-- A batch that has been committed, with its head. -/
structure Batch where
  items : List Record
  head : TreeHead

/-- The index of the first pair of a batch: its pairs are the last ones below its head. -/
def Batch.first (batch : Batch) : Nat := batch.head.treeSize.toNat - batch.items.length

/-- The pairs of a batch stand one after another in a list, up to the size of its head. -/
structure Batch.Placed (pairs : List Record) (batch : Batch) : Prop where
  first_add : batch.first + batch.items.length = batch.head.treeSize.toNat
  size_le : batch.head.treeSize.toNat ≤ pairs.length
  part : (pairs.drop batch.first).take batch.items.length = batch.items

section Placed

variable {pairs : List Record} {batch : Batch}

theorem Batch.Placed.append (h : Batch.Placed pairs batch) (items : List Record) :
    Batch.Placed (pairs ++ items) batch where
  first_add := h.first_add
  size_le := h.size_le.trans (by simp)
  part := by
    have hfirst := h.first_add
    have hsize := h.size_le
    rw [List.drop_append_of_le_length (by omega),
      List.take_append_of_le_length (by rw [List.length_drop]; omega)]
    exact h.part

theorem Batch.placed_last {items : List Record} {head : TreeHead}
    (h : head.treeSize.toNat = (pairs ++ items).length) :
    Batch.Placed (pairs ++ items) ⟨items, head⟩ ∧ Batch.first ⟨items, head⟩ = pairs.length := by
  have hfirst : Batch.first ⟨items, head⟩ = pairs.length := by simp [Batch.first, h]
  refine ⟨⟨?_, h.le, ?_⟩, hfirst⟩ <;> rw [hfirst]
  · simp [h]
  · simp

end Placed

namespace SharedLog

/-! ## An open log -/

/-- What becomes of a log while it is open, with the batches committed meanwhile: a batch is committed; or
one is refused, a head is shown, in any order, or something else gets in the way of the scratch file. -/
inductive Lives (name : String) (signer : Signer) (start : SharedLog) : SharedLog → List Batch → Prop
  | opened : Lives name signer start start []
  | committed {log : SharedLog} {batches : List Batch} (before : Lives name signer start log batches)
    {items : List Record} {head : TreeHead} {store : Store}
    (step : Ledger.commit log.ledger.signer log.store items = (.ok head, store))
    (fits : store.contents.Fits) : Lives name signer start ⟨log.ledger, store, log.pending ++ [head]⟩
      (batches ++ [⟨items, head⟩])
  | besides {log log' : SharedLog} {batches : List Batch}
    (before : Lives name signer start log batches) (step : Step name signer log [] [] log') :
    Lives name signer start log' batches

section Lives

variable {name : String} {signer : Signer} {start log log' : SharedLog} {pairs : List Record}
  {heads : List TreeHead} {batches later : List Batch}

/-- The life of an open log is a part of the run that it was opened in. -/
theorem Lives.reaches (opened : Reaches name signer start pairs heads)
    (h : Lives name signer start log batches) :
    Reaches name signer log (pairs ++ batches.flatMap Batch.items)
      (heads ++ batches.map Batch.head) := by
  induction h with
  | opened => simpa using opened
  | committed before step fits ih => simpa using ih.next (.committed step fits)
  | besides before step ih => exact ih.quiet step

/-- A step that commits nothing brings no new heads. -/
theorem Step.heads_subset (step : Step name signer log [] [] log') :
    log'.ledger.head :: log'.pending ⊆ log.ledger.head :: log.pending := by
  cases step with
  | refused step => exact List.Subset.refl _
  | @published index head found =>
    have hmem := List.mem_of_getElem? found
    have hpending : log.pending.eraseIdx index ⊆ log.ledger.head :: log.pending := fun _ hother =>
      List.mem_cons_of_mem _ (List.mem_of_mem_eraseIdx hother)
    rcases publish_cases log.ledger head with ⟨-, heq⟩ | ⟨-, heq⟩ <;> rw [heq]
    · exact List.cons_subset.mpr ⟨List.mem_cons_of_mem _ hmem, hpending⟩
    · exact List.cons_subset.mpr ⟨List.mem_cons_self, hpending⟩
  | obstructed slot => exact List.Subset.refl _

/-- **The heads shown** and to be shown are the first one and those of the batches. -/
theorem Lives.heads_subset (h : Lives name signer start log batches) (idle : start.pending = []) :
    log.ledger.head :: log.pending ⊆ start.ledger.head :: batches.map Batch.head := by
  induction h with
  | opened => simp [idle]
  | committed before step fits ih =>
    rw [List.map_append, ← List.cons_append, ← List.cons_append]
    exact List.append_subset.mpr
      ⟨List.Subset.trans ih (List.subset_append_left _ _), List.subset_append_right _ _⟩
  | besides before step ih => exact List.Subset.trans step.heads_subset ih

/-- **The head shown never becomes smaller.** -/
theorem Lives.shown_le (opened : Reaches name signer start pairs heads)
    (h : Lives name signer start log batches) : start.ledger.head.treeSize ≤ log.ledger.head.treeSize := by
  induction h with
  | opened => exact UInt64.le_refl _
  | committed before step fits ih => exact ih
  | besides before step ih =>
    obtain ⟨roots, sound⟩ := sound_of_reaches (before.reaches opened)
    exact UInt64.le_trans ih (sound.shown_le step)

/-- **Every batch** stands where the list ended when it was committed, and the next ones behind it. -/
theorem Lives.placed (opened : Reaches name signer start pairs heads)
    (h : Lives name signer start log batches) :
    (∀ batch ∈ batches, pairs.length ≤ batch.first ∧
      batch.Placed (pairs ++ batches.flatMap Batch.items)) ∧
    batches.Pairwise fun before after => before.head.treeSize.toNat ≤ after.first := by
  induction h with
  | opened => simp
  | @committed log batches before items head store step fits ih =>
    obtain ⟨hplaced, hordered⟩ := ih
    obtain ⟨roots, sound⟩ := sound_of_reaches (before.reaches opened)
    obtain ⟨hlast, hfirst⟩ := Batch.placed_last (sound.commit step fits).1
    rw [List.flatMap_append, ← List.append_assoc, List.flatMap_singleton]
    constructor
    · intro batch hbatch
      rcases List.mem_append.mp hbatch with hmem | hmem
      · obtain ⟨hle, hbefore⟩ := hplaced batch hmem
        exact ⟨hle, hbefore.append items⟩
      · rw [List.mem_singleton.mp hmem, hfirst]
        exact ⟨by simp, hlast⟩
    · refine List.pairwise_append.mpr ⟨hordered, List.pairwise_singleton _ _, ?_⟩
      intro earlier hearlier batch hbatch
      rw [List.mem_singleton.mp hbatch, hfirst]
      exact (hplaced earlier hearlier).2.size_le
  | besides before step ih => exact ih

end Lives

/-! ## Every interleaving -/

/-- What holds of an open log and the batches committed since it was opened: the head shown is one of
theirs, or the one it was opened with; it is no larger than the stored head, and is that head once nothing
is left to be shown; the pairs of each batch have indices of their own, behind those from before, and are
read back from there. -/
structure Consistent (start log : SharedLog) (batches : List Batch) : Prop where
  shown : log.ledger.head ∈ start.ledger.head :: batches.map Batch.head
  stored : ∃ head, log.store.view storedHead = .ok head ∧ log.ledger.head.treeSize ≤ head.treeSize ∧
    (log.pending = [] → head = log.ledger.head)
  behind : ∀ batch ∈ batches, start.ledger.head.treeSize.toNat ≤ batch.first ∧
    batch.first + batch.items.length = batch.head.treeSize.toNat
  disjoint : batches.Pairwise fun before after => before.head.treeSize.toNat ≤ after.first
  records : ∀ batch ∈ batches, batch.items ≠ [] →
    Ledger.records log.store batch.first (batch.head.treeSize.toNat - 1) = .ok batch.items

/-- **Submissions that run at once** leave a consistent log, however their steps are interleaved, and the
head shown never becomes smaller. -/
theorem submissions_consistent {name : String} {signer : Signer} {start log : SharedLog}
    {pairs : List Record} {heads : List TreeHead} {batches : List Batch}
    (opened : Reaches name signer start pairs heads) (idle : start.pending = [])
    (h : Lives name signer start log batches) : Consistent start log batches ∧
      ∀ log' later, Lives name signer log log' later →
        log.ledger.head.treeSize ≤ log'.ledger.head.treeSize := by
  have reaches := h.reaches opened
  obtain ⟨_, first⟩ := sound_of_reaches opened
  obtain ⟨roots, sound⟩ := sound_of_reaches reaches
  obtain ⟨hplaced, hordered⟩ := h.placed opened
  refine ⟨⟨?_, ?_, ?_, hordered, ?_⟩, fun log' later h' => h'.shown_le reaches⟩
  · exact h.heads_subset idle List.mem_cons_self
  · obtain ⟨head, hstored, hsize, -⟩ := sound.stored
    refine ⟨head, hstored, ?_, fun hidle => ?_⟩
    · rw [UInt64.le_iff_toNat_le, hsize]
      exact (sound.issuedAt sound.shown).2
    · exact Except.ok.inj (hstored.symm.trans (sound.stored_of_idle hidle))
  · intro batch hbatch
    rw [first.shown_treeSize idle]
    exact ⟨(hplaced batch hbatch).1, (hplaced batch hbatch).2.first_add⟩
  · intro batch hbatch hne
    obtain ⟨hadd, hle, hpart⟩ := (hplaced batch hbatch).2
    have hpos := List.length_pos_iff.mpr hne
    have hcount : batch.head.treeSize.toNat - 1 - batch.first + 1 = batch.items.length := by omega
    rw [sound.records_eq (by omega) (by omega), hcount, hpart]

/-- Two batches are committed at once; the second one shows its head, then the first, which is too late. -/
theorem submissions_consistent_two_batches : ∃ (start between log : SharedLog) (one two : TreeHead),
    Reaches "log" Signer.mirror start [] [start.ledger.head] ∧ start.pending = [] ∧
      Lives "log" Signer.mirror start between
        [⟨[⟨[1], [5]⟩], one⟩, ⟨[⟨[2], [6]⟩], two⟩] ∧ between.pending = [one] ∧
      between.ledger.head = two ∧ log.pending = [] ∧
      Consistent start log [⟨[⟨[1], [5]⟩], one⟩, ⟨[⟨[2], [6]⟩], two⟩] ∧
      between.ledger.head.treeSize ≤ log.ledger.head.treeSize := by
  obtain ⟨g⟩ := exists_grown_one_two "log" (show Store.inMemory.contents = ∅ from rfl)
    Store.clear_inMemory
  have opened := g.reaches rfl
  have begun : Lives "log" Signer.mirror ⟨⟨"log", Signer.mirror, g.genesis⟩, g.opened, []⟩ _ [] :=
    .opened
  have committed := (begun.committed g.commit_one g.fits_one).committed g.commit_two g.fits_two
  have hsecond : ([] ++ [g.one] ++ [g.two])[1]? = some g.two := rfl
  have run := committed.besides (.published hsecond)
  have hfirst : (([] ++ [g.one] ++ [g.two]).eraseIdx 1)[0]? = some g.one := rfl
  have later := run.besides (.published hfirst)
  have hshown : (publish ⟨"log", Signer.mirror, g.genesis⟩ g.two).head = g.two := by
    have hle : g.genesis.treeSize ≤ g.two.treeSize := by
      rw [UInt64.le_iff_toNat_le, g.standing.treeSize, g.standing_two.treeSize]
      decide
    rw [publish_of_le hle]
  refine ⟨_, _, _, g.one, g.two, opened, rfl, run, rfl, hshown, rfl,
    (submissions_consistent opened rfl later).1, ?_⟩
  exact (submissions_consistent opened rfl run).2 _ _ (Lives.opened.besides (.published hfirst))

end SharedLog

end TransparencyLog
