import TransparencyLog.Proofs.Ledger.Acceptance
import TransparencyLog.Proofs.Ledger.Shared
import TransparencyLog.Proofs.SparseMap.Addressed

/-!
# Batching is only grouping

Two batches can be submitted one after the other, or as one. A key that comes twice is found among the
keys of the batch in one case, and in the map that the first batch has left in the other. The log and the
map go through one transaction, or are taken up again from the store in a second one; in between a head
is stored, which neither of the trees reads, and which the second head replaces. So both ways accept the
same batches, and end with the same head and the same store.

* `newKeys_append_iff`, `acceptable_append_iff`: a batch is acceptable if its parts are, one behind the
  other;
* `Ledger.appendAll_append`, `Ledger.appendAll_ignores`: the parts of a transaction, with anything at the
  address of the head in between;
* **`SharedLog.Sound.commit_append`**: both ways leave one store;
* `SharedLog.submit_parts_eq`, `SharedLog.submit_parts`: what both ways end with, and when they do;
* `SharedLog.submit_nil`: the batch of no pairs;
* **`SharedLog.submit_append`**: both for every run of a log.
-/

namespace TransparencyLog

/-! ## The checks -/

section Checks

variable {taken : List Bytes} {pairs xs ys : List Record} {signer : Signer} {store middle : Store}

theorem newKeys_append_iff :
    NewKeys taken (xs ++ ys) ↔ NewKeys taken xs ∧ NewKeys (taken ++ xs.map Record.key) ys := by
  constructor
  · intro h
    have hnodup := h.different
    rw [List.map_append, List.nodup_append] at hnodup
    refine ⟨⟨hnodup.1, ?_⟩, hnodup.2.1, ?_⟩
    · exact fun item hitem => h.untaken item (List.mem_append_left _ hitem)
    · intro item hitem hmem
      rcases List.mem_append.mp hmem with htaken | hfirst
      · exact h.untaken item (List.mem_append_right _ hitem) htaken
      · exact hnodup.2.2 _ hfirst _ (List.mem_map_of_mem hitem) rfl
  · rintro ⟨hfirst, hsecond⟩
    constructor
    · rw [List.map_append, List.nodup_append]
      refine ⟨hfirst.different, hsecond.different, ?_⟩
      rintro key hkey _ hother rfl
      obtain ⟨item, hitem, rfl⟩ := List.mem_map.mp hother
      exact hsecond.untaken item hitem (List.mem_append_right _ hkey)
    · intro item hitem hmem
      rcases List.mem_append.mp hitem with hleft | hright
      · exact hfirst.untaken item hleft hmem
      · exact hsecond.untaken item hright (List.mem_append_left _ hmem)

/-- A batch is acceptable if its first part is, and its second part behind that. -/
theorem acceptable_append_iff (clear : middle.Clear) :
    Acceptable signer store pairs (xs ++ ys) ↔
      Acceptable signer store pairs xs ∧ Acceptable signer middle (pairs ++ xs) ys := by
  constructor
  · intro h
    obtain ⟨hfirst, hsecond⟩ := newKeys_append_iff.mp h.new
    obtain ⟨hfits, hfits'⟩ := List.forall_mem_append.mp h.fitting
    rw [← List.map_append] at hsecond
    exact ⟨⟨h.signs, hfits, hfirst, h.clear⟩, h.signs, hfits', hsecond, clear⟩
  · rintro ⟨h, h'⟩
    have hsecond := h'.new
    rw [List.map_append] at hsecond
    exact ⟨h.signs, List.forall_mem_append.mpr ⟨h.fitting, h'.fitting⟩,
      newKeys_append_iff.mpr ⟨h.new, hsecond⟩, h.clear⟩

end Checks

namespace Ledger

/-! ## The transactions -/

/-- The rest of a batch goes on where the first part has come to. -/
theorem appendAll_append {log log' : LogView} {root root' : Digest} {xs : List Record}
    {draft between : Draft} (h : appendAll log root xs draft = .ok ((log', root'), between))
    (ys : List Record) : appendAll log root (xs ++ ys) draft = appendAll log' root' ys between := by
  induction xs generalizing log root draft with
  | nil =>
    obtain ⟨hsame, rfl⟩ := Prod.mk.inj (Except.ok.inj h)
    obtain ⟨rfl, rfl⟩ := Prod.mk.inj hsame
    rfl
  | cons item rest ih =>
    rw [appendAll] at h
    obtain ⟨data, _, hlift, h₁⟩ := Write.exists_of_bind h
    obtain ⟨grown, _, hgrown, h₂⟩ := Write.exists_of_bind h₁
    obtain ⟨next, _, hnext, h₃⟩ := Write.exists_of_bind h₂
    rw [List.cons_append, appendAll, Write.bind_ok hlift, Write.bind_ok hgrown, Write.bind_ok hnext]
    exact ih h₃

/-- Neither of the trees depends on what is stored as the head. -/
theorem appendAll_ignores (log : LogView) (root : Digest) (items : List Record) :
    (appendAll log root items).Ignores headAddress := by
  induction items generalizing log root with
  | nil => exact Write.ignores_pure _
  | cons item rest ih =>
    rw [appendAll]
    refine (Write.ignores_lift _).bind fun data => ?_
    refine (Tree.append_ignores headAddress_ne log data).bind fun grown => ?_
    refine (SparseMap.update_ignores headAddress_outside root _ _).bind fun next => ?_
    exact ih grown next

/-- Storing a head makes no difference where trees are read, also once it is committed. -/
theorem agreeOff_head (draft : Draft) (head : TreeHead) :
    Snapshot.AgreeOff headAddress draft.get?
      (Draft.get? ⟨(draft.set headBucket headKey head.encode).merged, ∅⟩) := by
  intro address hne
  rw [Draft.get?_base]
  refine (Draft.getElem?_merged _ address).trans ?_
  exact (draft.get?_set _ _ _ address).trans (if_neg hne)

/-- Drafts that agree off the head leave the same contents under one head. -/
theorem merged_eq_of_agreeOff {draft draft' : Draft}
    (h : Snapshot.AgreeOff headAddress draft.get? draft'.get?) (head : TreeHead) :
    (draft'.set headBucket headKey head.encode).merged =
      (draft.set headBucket headKey head.encode).merged := by
  apply Std.ExtTreeMap.ext_getElem?
  intro address
  rw [Draft.getElem?_merged, Draft.getElem?_merged, Draft.get?_set, Draft.get?_set]
  split
  · rfl
  · next hne => exact h address hne

end Ledger

/-! ## The stores of both ways -/

namespace SharedLog

open Ledger

section Parts

variable {signer : Signer} {log : SharedLog} {pairs xs ys : List Record} {heads : List TreeHead}
  {roots : List Digest} {first last head : TreeHead} {after : Ledger} {middle store store' : Store}

/-- **Two batches that are committed** leave the store that one batch with the pairs of both leaves. -/
theorem Sound.commit_append (h : Sound signer log pairs heads roots)
    (hfirst : Ledger.commit log.ledger.signer log.store xs = (.ok first, middle)) (fits : middle.contents.Fits)
    (hsecond : Ledger.commit log.ledger.signer middle ys = (.ok head, store))
    (hwhole : Ledger.commit log.ledger.signer log.store (xs ++ ys) = (.ok head, store')) : store = store' := by
  obtain ⟨one, hone, rfl⟩ := exists_of_commit hfirst
  obtain ⟨two, htwo, rfl⟩ := exists_of_commit hsecond
  obtain ⟨all, hall, rfl⟩ := exists_of_commit hwhole
  obtain ⟨before, hstored, hsize, hbefore⟩ := h.stored
  rw [← Draft.get?_base] at hstored
  obtain ⟨_, -, -, hread⟩ := h.tracks.record hstored hsize hbefore.mapRoot hone
  obtain ⟨old, log₁, root₁, between, _, hold, hrun₁, -, hsigned, rfl⟩ := exists_of_record hone
  obtain ⟨old', _, _, between', _, hold', hrun', -, -, rfl⟩ := exists_of_record hall
  obtain ⟨next, _, _, last, _, hnext, hrun₂, -, -, rfl⟩ := exists_of_record htwo
  obtain rfl := Except.ok.inj (hstored.symm.trans hold)
  obtain rfl := Except.ok.inj (hstored.symm.trans hold')
  -- The second transaction takes up the log and the map where the first has left them.
  have hnext' : next = first := by
    have hhead := (storedHead_of_fits fits ((Draft.getElem?_merged _ _).trans hread)).2
    rw [← Draft.get?_base] at hhead
    exact Except.ok.inj (hnext.symm.trans hhead)
  subst hnext'
  have hlog : log₁ = ⟨next.treeSize.toNat⟩ := by
    rw [(h.commit hfirst fits).1]
    rw [hsize] at hrun₁
    obtain ⟨-, -, heq, -⟩ := h.tracks.appendAll hbefore.mapRoot hrun₁
    exact heq
  have hroot : root₁ = next.mapRoot := (TreeHead.signed_ok hsigned).2.2.1.symm
  subst hlog hroot
  rw [appendAll_append hrun₁] at hrun'
  obtain ⟨last', hlast, hagree⟩ :=
    appendAll_ignores _ _ _ _ _ (agreeOff_head between next) _ _ hrun'
  obtain ⟨-, rfl⟩ := Prod.mk.inj (Except.ok.inj (hrun₂.symm.trans hlast))
  rw [merged_eq_of_agreeOff hagree, Store.written_written]

/-! ## What is hashed -/

/-- What is hashed when two batches are submitted, first one after the other and then as one. -/
def groupedInputs (pairs xs ys : List Record) : Set Bytes :=
  hashedBy pairs xs ∪ hashedBy pairs (xs ++ ys)

/-- What is hashed for a second batch, if the first is recorded, is hashed for both as one, or for the
first. -/
theorem hashedBy_subset_grouped (hnodup : ((pairs ++ xs).map Record.key).Nodup) :
    hashedBy (pairs ++ xs) ys ⊆ groupedInputs pairs xs ys := by
  rintro s (hs | ⟨item, hitem, rfl⟩ | ⟨hdifferent, hs⟩)
  · exact Or.inl (hashedBy_of_nodup hnodup hs)
  · exact Or.inr (Or.inr (Or.inl ⟨item, List.mem_append_right _ hitem, rfl⟩))
  · rw [List.append_assoc] at hdifferent hs
    exact Or.inr (hashedBy_of_nodup hdifferent hs)

/-! ## Submissions -/

section Accepted

variable {name : String} {ledger between : Ledger} (h : Reaches name signer log pairs heads)
  (hinj : Set.InjOn sha256 (groupedInputs pairs xs ys))
  (hzero : ∀ entry ∈ entriesOf (pairs ++ xs), sha256 entry.2 ≠ Digest.zero)

include h hinj hzero

theorem heads_of_grouped : Unambiguous pairs ∧ ∃ head, Heads log.store.contents pairs head := by
  have hun : Unambiguous pairs :=
    ⟨hinj.mono ((hashed_subset_hashedBy pairs xs).trans Set.subset_union_left),
      fun entry hentry => hzero entry (entriesOf_append pairs xs hentry)⟩
  exact ⟨hun, heads_of_reaches h hun⟩

/-- A second batch is submitted behind the pairs of the first, where no more is hashed. -/
theorem behind_of_submit (hfirst : log.ledger.submit log.store xs = (.ok first, between, middle)) :
    Acceptable log.ledger.signer log.store pairs xs ∧ between.signer = log.ledger.signer ∧
      middle.Clear ∧ Heads middle.contents (pairs ++ xs) first ∧ Unambiguous (pairs ++ xs) ∧
      Set.InjOn sha256 (hashedBy (pairs ++ xs) ys) := by
  obtain ⟨roots, sound⟩ := sound_of_reaches h
  obtain ⟨hun, before, heads⟩ := heads_of_grouped h hinj hzero
  obtain ⟨hacceptable, -, hheads, clear⟩ :=
    accepted_of_submit heads sound.fits hun (hinj.mono Set.subset_union_left) hfirst
  obtain ⟨-, rfl⟩ := submit_eq_ok_iff.mp hfirst
  have hnodup := hacceptable.new.nodup_append heads.recorded.nodup
  exact ⟨hacceptable, signer_publish _ _, clear, hheads,
    ⟨hinj.mono ((hashedBy_of_nodup hnodup).trans Set.subset_union_left), hzero⟩,
    hinj.mono (hashedBy_subset_grouped hnodup)⟩

/-- **Both ways end alike**, if both are gone to the end. -/
theorem submit_parts_eq (hfirst : log.ledger.submit log.store xs = (.ok first, between, middle))
    (fits : middle.contents.Fits) (hsecond : between.submit middle ys = (.ok last, after, store))
    (hwhole : log.ledger.submit log.store (xs ++ ys) = (.ok head, ledger, store'))
    (fits' : store'.contents.Fits) : last = head ∧ after = ledger ∧ store = store' := by
  obtain ⟨roots, sound⟩ := sound_of_reaches h
  obtain ⟨hun, before, heads⟩ := heads_of_grouped h hinj hzero
  obtain ⟨-, hsigner, -, hmiddle, hun', hinj'⟩ := behind_of_submit h hinj hzero hfirst
  obtain ⟨-, hlast, -, -⟩ := accepted_of_submit hmiddle fits hun' hinj' hsecond
  obtain ⟨-, hhead, hheads, -⟩ :=
    accepted_of_submit heads sound.fits hun (hinj.mono Set.subset_union_right) hwhole
  rw [hsigner, List.append_assoc] at hlast
  obtain rfl := Except.ok.inj (hlast.symm.trans hhead)
  obtain ⟨hcommit, rfl⟩ := submit_eq_ok_iff.mp hfirst
  obtain ⟨hcommit', rfl⟩ := submit_eq_ok_iff.mp hsecond
  obtain ⟨hcommit'', rfl⟩ := submit_eq_ok_iff.mp hwhole
  rw [hsigner] at hcommit'
  refine ⟨rfl, publish_publish ?_, sound.commit_append hcommit fits hcommit' hcommit''⟩
  rw [UInt64.le_iff_toNat_le, hmiddle.toNat_treeSize fits, hheads.toNat_treeSize fits']
  simp

/-- **Two batches are accepted, one after the other,** exactly if they are as one batch, and then the
answer, the log and the store are the same. -/
theorem submit_parts (clear : log.store.Clear)
    (fits : (log.ledger.submit log.store xs).2.2.contents.Fits)
    (fits' : (log.ledger.submit log.store (xs ++ ys)).2.2.contents.Fits) :
    log.ledger.submit log.store (xs ++ ys) = (.ok head, ledger, store) ↔
      ∃ first between middle, log.ledger.submit log.store xs = (.ok first, between, middle) ∧
        between.submit middle ys = (.ok head, ledger, store) := by
  obtain ⟨roots, sound⟩ := sound_of_reaches h
  obtain ⟨hun, before, heads⟩ := heads_of_grouped h hinj hzero
  have hboth := hinj.mono (Set.subset_union_right : hashedBy pairs (xs ++ ys) ⊆ _)
  constructor
  · intro hwhole
    obtain ⟨hacceptable, -⟩ := accepted_of_submit heads sound.fits hun hboth hwhole
    obtain ⟨hxs, -⟩ := (acceptable_append_iff clear).mp hacceptable
    obtain ⟨first, between, middle, hfirst⟩ :=
      exists_submit heads sound.fits hun (hinj.mono Set.subset_union_left) hxs
    rw [hfirst] at fits
    rw [hwhole] at fits'
    obtain ⟨-, hsigner, clear', hmiddle, hun', hinj'⟩ := behind_of_submit h hinj hzero hfirst
    obtain ⟨-, hys⟩ := (acceptable_append_iff clear').mp hacceptable
    rw [← hsigner] at hys
    obtain ⟨last, after, store', hsecond⟩ := exists_submit hmiddle fits hun' hinj' hys
    obtain ⟨rfl, rfl, rfl⟩ := submit_parts_eq h hinj hzero hfirst fits hsecond hwhole fits'
    exact ⟨first, between, middle, hfirst, hsecond⟩
  · rintro ⟨first, between, middle, hfirst, hsecond⟩
    rw [hfirst] at fits
    obtain ⟨hxs, hsigner, clear', hmiddle, hun', hinj'⟩ := behind_of_submit h hinj hzero hfirst
    obtain ⟨hys, -⟩ := accepted_of_submit hmiddle fits hun' hinj' hsecond
    rw [hsigner] at hys
    obtain ⟨whole, after, store', hwhole⟩ :=
      exists_submit heads sound.fits hun hboth ((acceptable_append_iff clear').mpr ⟨hxs, hys⟩)
    rw [hwhole] at fits'
    obtain ⟨rfl, rfl, rfl⟩ := submit_parts_eq h hinj hzero hfirst fits hsecond hwhole fits'
    exact hwhole

end Accepted

/-- **The batch of no pairs** is answered with the stored head, and the contents stay as they are. -/
theorem submit_nil {name : String} (h : Reaches name signer log pairs heads) (clear : log.store.Clear) :
    ∃ head store, log.store.view storedHead = .ok head ∧ (log.pending = [] → head = log.ledger.head) ∧
      log.ledger.submit log.store [] = (.ok head, log.ledger.publish head, store) ∧
      store.contents = log.store.contents := by
  obtain ⟨roots, sound⟩ := sound_of_reaches h
  obtain ⟨_, -, hissued, -⟩ := sound.latest
  obtain ⟨head, store, -, hstored, hcommit, hsame⟩ := sound.commit_nil hissued.canSign clear
  refine ⟨head, store, hstored, fun idle => ?_, submit_eq_ok_iff.mpr ⟨hcommit, rfl⟩, hsame⟩
  exact Except.ok.inj (hstored.symm.trans (sound.stored_of_idle idle))

end Parts

/-- **Batching is only grouping.** In every state of a log, two batches are accepted one after the other
exactly if they are accepted as one, and then the head, the log and the store are the same. The batch of
no pairs is answered with the stored head, which is the one shown unless another is still to be shown, and
leaves the contents as they are. The ways out are a collision among the strings hashed in the two ways,
and an entry that hashes to the 32 zero bytes of an absent one. -/
theorem submit_append {name : String} {signer : Signer} {log : SharedLog} {pairs : List Record}
    {heads : List TreeHead} (h : Reaches name signer log pairs heads) (clear : log.store.Clear)
    (xs ys : List Record) (fits : (log.ledger.submit log.store xs).2.2.contents.Fits)
    (fits' : (log.ledger.submit log.store (xs ++ ys)).2.2.contents.Fits) :
    ((∀ head ledger store, log.ledger.submit log.store (xs ++ ys) = (.ok head, ledger, store) ↔
        ∃ first between middle, log.ledger.submit log.store xs = (.ok first, between, middle) ∧
          between.submit middle ys = (.ok head, ledger, store)) ∨
      CollisionBetween (groupedInputs pairs xs ys) (groupedInputs pairs xs ys) ∨
      ∃ entry ∈ entriesOf (pairs ++ xs), sha256 entry.2 = Digest.zero) ∧
    ∃ head store, log.store.view storedHead = .ok head ∧ (log.pending = [] → head = log.ledger.head) ∧
      log.ledger.submit log.store [] = (.ok head, log.ledger.publish head, store) ∧
      store.contents = log.store.contents := by
  refine ⟨?_, submit_nil h clear⟩
  refine (injOn_or_ambiguous (groupedInputs pairs xs ys) (pairs ++ xs)).imp_left ?_
  exact fun ⟨hinj, hzero⟩ head ledger store => submit_parts h hinj hzero clear fits fits'

/-- A log in memory is given two pairs, one after the other and both at once. -/
theorem submit_append_one_and_one : ∃ (genesis one two : TreeHead) (opened afterOne afterTwo : Store),
    Reaches "log" Signer.mirror ⟨⟨"log", Signer.mirror, genesis⟩, opened, []⟩ [] [genesis] ∧
      opened.Clear ∧
      (Ledger.mk "log" Signer.mirror genesis).submit opened [⟨[1], [5]⟩] =
        (.ok one, ⟨"log", Signer.mirror, one⟩, afterOne) ∧
      (Ledger.mk "log" Signer.mirror one).submit afterOne [⟨[2], [6]⟩] =
        (.ok two, ⟨"log", Signer.mirror, two⟩, afterTwo) ∧
      ((Ledger.mk "log" Signer.mirror genesis).submit opened ([⟨[1], [5]⟩] ++ [⟨[2], [6]⟩]) =
          (.ok two, ⟨"log", Signer.mirror, two⟩, afterTwo) ∨
        CollisionBetween (groupedInputs [] [⟨[1], [5]⟩] [⟨[2], [6]⟩])
          (groupedInputs [] [⟨[1], [5]⟩] [⟨[2], [6]⟩])) ∧
      ∃ after, (Ledger.mk "log" Signer.mirror genesis).submit opened [] =
        (.ok genesis, ⟨"log", Signer.mirror, genesis⟩, after) ∧ after.contents = opened.contents := by
  obtain ⟨g⟩ := exists_grown_one_two "log" (show Store.inMemory.contents = ∅ from rfl)
    Store.clear_inMemory
  have reaches := g.reaches rfl
  obtain ⟨heither, last, after, -, hshown, hnil, hsame⟩ :=
    submit_append reaches g.standing.clear [⟨[1], [5]⟩] [⟨[2], [6]⟩]
      (by rw [g.submit_one]; exact g.fits_one)
      (by rw [List.singleton_append, g.submit_both]; exact g.fits_both)
  obtain rfl := hshown rfl
  have hpublish : (Ledger.mk "log" Signer.mirror g.genesis).publish g.genesis =
      ⟨"log", Signer.mirror, g.genesis⟩ := publish_of_le (UInt64.le_refl _)
  refine ⟨g.genesis, g.one, g.two, g.opened, g.afterOne, g.afterTwo, reaches, g.standing.clear,
    g.submit_one, g.submit_two, ?_, after, hnil.trans (by rw [hpublish]), hsame⟩
  rcases heither with hparts | hcol | ⟨entry, hentry, hzero⟩
  · exact Or.inl ((hparts _ _ _).mpr ⟨_, _, _, g.submit_one, g.submit_two⟩)
  · exact Or.inr hcol
  · exact absurd hzero (nonzero_one_two entry (entriesOf_append [⟨[1], [5]⟩] [⟨[2], [6]⟩] hentry))

end SharedLog

end TransparencyLog
