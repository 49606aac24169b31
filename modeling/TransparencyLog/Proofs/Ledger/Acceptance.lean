import TransparencyLog.Proofs.Ledger.Shared
import TransparencyLog.Proofs.Ledger.Volume

/-!
# Batches that are accepted for certain

Whether the keys of a batch are new is answered by the map, and its answers are right as long as nothing
collides. In a half of the map without keys no such proviso is needed: every key is new there. So a log on
a fresh store takes any first pair that fits, and any second one whose key belongs to the other half, one
after the other or both at once.

* `Ledger.checkNew_of_vacant`, `Ledger.Tracks.exists_append`: keys that are new, and a pair that is taken;
* `Ledger.Standing`: a store in step with a head over its pairs, with room left;
* `Ledger.exists_standing`, **`Ledger.Standing.accept`**: opening a fresh store, and a batch of new keys;
* `Ledger.Standing.accept_one`, `Ledger.Standing.accept_two`: batches of pairs of vacant halves;
* `Ledger.Grown`, **`Ledger.exists_grown`**: a log that is given two pairs, and **`Ledger.Grown.reaches_two`**,
  its run;
* `Signer.mirror`: a signer whose signatures are the messages themselves.
-/

namespace TransparencyLog

/-- A signer whose signatures are the messages themselves. -/
def Signer.mirror : Signer := ⟨[], some fun message => message, fun message signature =>
  signature == message⟩

theorem Signer.mirror_honest : mirror.Honest := by
  rintro _ ⟨⟩ message
  exact beq_self_eq_true message

theorem Signer.mirror_short : mirror.Short := by
  rintro _ ⟨⟩ d
  rw [Digest.length_eq]
  decide

namespace Ledger

/-! ## New keys -/

section Vacant

variable {view : Snapshot} {root : Digest} {seen : List Bytes} {items : List Record}

/-- Keys of a vacant half are new, if the batch has them once. -/
theorem checkNew_of_vacant (hnodup : (items.map Record.key).Nodup)
    (hseen : ∀ item ∈ items, item.key ∉ seen)
    (h : ∀ item ∈ items, SparseMap.Vacant view root (SparseMap.side item.key)) :
    checkNew view root seen items = .ok () := by
  have hget : ∀ item ∈ items, ∃ found, SparseMap.get view root item.key = .ok found ∧
      (item.key ∈ seen ↔ item.key ∈ seen ∨ found.isSome) :=
    fun item hitem => ⟨none, (h item hitem).get_eq rfl, by simp⟩
  rcases checkNew_cases hget with ⟨hok, -⟩ | ⟨before, item, after, rfl, -, hknown, -⟩
  · exact hok
  · rw [List.map_append, List.map_cons, List.nodup_append] at hnodup
    rcases hknown with hmem | hmem
    · exact absurd hmem (hseen item (List.mem_append_right _ List.mem_cons_self))
    · exact absurd rfl (hnodup.2.2 _ hmem _ List.mem_cons_self)

variable {draft : Draft} {pairs : List Record} {roots : List Digest} {item : Record}

/-- **A pair whose key belongs to a vacant half** is taken. If it is the first one of the map, the other
half stays vacant. -/
theorem Tracks.exists_append (h : Tracks draft pairs roots) (hroot : roots[pairs.length]? = some root)
    (fitting : item.Fitting)
    (vacant : SparseMap.Vacant draft.get? root (SparseMap.side item.key)) :
    ∃ next between, Tracks between (pairs ++ [item]) (roots ++ [next]) ∧
      (∀ rest, Ledger.appendAll ⟨pairs.length⟩ root (item :: rest) draft =
        Ledger.appendAll ⟨(pairs ++ [item]).length⟩ next rest between) ∧
      (root = SparseMap.emptyRoot →
        SparseMap.Vacant between.get? next (!SparseMap.side item.key)) := by
  obtain ⟨hkey, hvalue, hdata⟩ := Record.field_lengths fitting
  have hencode : (liftM item.encode : Write Bytes) draft = .ok (_, draft) :=
    Write.lift_ok (Record.encode_eq hkey hvalue)
  obtain ⟨appended, hlog, -, hframe⟩ := Tree.append_holds h.log hdata
  rw [length_leavesOf] at hlog
  have hvacant : SparseMap.Vacant appended.get? root (SparseMap.side item.key) := by
    refine vacant.congr fun address hbucket => hframe address fun level index heq => ?_
    exact address_outside level index (.node root root) (heq ▸ hbucket)
  obtain ⟨next, updated, hupdate⟩ := hvacant.exists_update rfl
    (MapEntry.mk item.value (UInt64.ofNat pairs.length)).encode
  have hrest : ∀ rest, Ledger.appendAll ⟨pairs.length⟩ root (item :: rest) draft =
      Ledger.appendAll ⟨(pairs ++ [item]).length⟩ next rest updated := by
    intro rest
    rw [Ledger.appendAll, Write.bind_ok hencode, Write.bind_ok hlog, Write.bind_ok hupdate,
      List.length_append]
    rfl
  obtain ⟨_, _, htracks, hlast⟩ := h.append hroot (hrest [])
  obtain ⟨heq, rfl⟩ := Prod.mk.inj (Except.ok.inj hlast)
  obtain ⟨-, rfl⟩ := Prod.mk.inj heq
  refine ⟨_, _, htracks, hrest, fun hempty => ?_⟩
  rw [hempty] at hupdate
  exact SparseMap.vacant_update hupdate

end Vacant

/-! ## The transaction -/

section Transaction

variable {signer : Signer} {draft between : Draft} {pairs items : List Record} {roots : List Digest}
  {head : TreeHead} {grown : LogView × Digest}

/-- **The transaction of a batch** whose keys are new and which has been taken. -/
theorem Tracks.exists_record (h : Tracks draft pairs roots) (signs : signer.canSign = true)
    (hhead : storedHead draft.get? = .ok head) (hsize : head.treeSize.toNat = pairs.length)
    (hroot : roots[pairs.length]? = some head.mapRoot)
    (hnew : checkNew draft.get? head.mapRoot [] items = .ok ())
    (hall : Ledger.appendAll ⟨pairs.length⟩ head.mapRoot items draft = .ok (grown, between)) :
    ∃ next, Ledger.record signer items draft =
        .ok (next, between.set headBucket headKey next.encode) ∧
      next.treeSize = UInt64.ofNat (pairs ++ items).length ∧ next.mapRoot = grown.2 := by
  obtain ⟨later, hafter, hgrown, -⟩ := h.appendAll hroot hall
  obtain ⟨log, mapRoot⟩ := grown
  obtain rfl : log = ⟨(pairs ++ items).length⟩ := hgrown
  obtain ⟨next, hsigned⟩ := TreeHead.exists_signed signs (UInt64.ofNat (pairs ++ items).length)
    (Tree.rootOf (leavesOf (pairs ++ items))) mapRoot
  obtain ⟨hnext, -, hmap, -⟩ := TreeHead.signed_ok hsigned
  have hcheck : Write.read (fun view => checkNew view head.mapRoot [] items) draft =
      .ok ((), draft) := Write.read_ok hnew
  refine ⟨next, ?_, hnext, hmap⟩
  rw [Ledger.record, Write.bind_ok (Write.read_ok hhead), Write.bind_ok hcheck, hsize,
    Write.bind_ok hall]
  simp only
  rw [Write.bind_ok (Write.read_ok hafter.root_eq), Write.bind_ok (Write.lift_ok hsigned)]
  rfl

end Transaction

/-! ## Stores with room -/

/-- The store tracks the pairs under a head that is stored; nothing is in the way of a commit, and there
are so many entries at most. -/
structure Standing (store : Store) (pairs : List Record) (head : TreeHead) (count : Nat) : Prop where
  clear : store.Clear
  within : store.Within count
  held : store.contents.snapshot headAddress = some head.encode
  treeSize : head.treeSize.toNat = pairs.length
  tracks : ∃ roots, Tracks ⟨store.contents, ∅⟩ pairs roots ∧ roots[pairs.length]? = some head.mapRoot

section Standing

variable {signer : Signer} {store : Store} {pairs items : List Record} {head : TreeHead}
  {roots : List Digest} {count : Nat}

/-- A store stands once a draft that tracks the pairs has been committed with a head over them. -/
theorem standing_of_tracks {draft : Draft} (h : Tracks draft pairs roots)
    (hroot : roots[pairs.length]? = some head.mapRoot)
    (hsize : head.treeSize = UInt64.ofNat pairs.length) {medium : Medium}
    (within : Store.Within ⟨(draft.set headBucket headKey head.encode).merged,
      Store.written medium (draft.set headBucket headKey head.encode).merged⟩ count)
    (room : count < UInt64.size) :
    Standing ⟨(draft.set headBucket headKey head.encode).merged,
      Store.written medium (draft.set headBucket headKey head.encode).merged⟩ pairs head count := by
  have hframe : ∀ address, address ≠ headAddress →
      (draft.set headBucket headKey head.encode).get? address = draft.get? address :=
    fun address hne => (Draft.get?_set _ _ _ _ address).trans (if_neg hne)
  have hcommitted := (h.congr hframe).committed
  have hfits : Contents.Fits _ := within.fits room
  have hlog : Tree.Holds (draft.set headBucket headKey head.encode).merged.snapshot
      (leavesOf pairs) := by
    rw [← Draft.get?_base]
    exact hcommitted.log
  have hlength := hlog.length_le_size
  rw [length_leavesOf] at hlength
  refine ⟨Store.clear_written _ _, within, ?_, ?_, roots, hcommitted, hroot⟩
  · exact (Draft.getElem?_merged _ _).trans (get?_set_head _ _)
  · rw [hsize]
    exact UInt64.toNat_ofNat_of_lt' (Nat.lt_of_le_of_lt hlength hfits.size_lt)

theorem Standing.fits (h : Standing store pairs head count) (room : count < UInt64.size) :
    store.contents.Fits := h.within.fits room

theorem Standing.stored (h : Standing store pairs head count) (room : count < UInt64.size) :
    storedHead store.contents.snapshot = .ok head := (storedHead_of_fits (h.fits room) h.held).2

theorem Standing.signature_lt (h : Standing store pairs head count) (room : count < UInt64.size) :
    head.signature.length < UInt64.size := (storedHead_of_fits (h.fits room) h.held).1

variable (signs : signer.canSign = true) (short : signer.Short)

include signs short

/-- **A fresh store** is opened. -/
theorem exists_standing (name : String) (fresh : store.contents = ∅) (clear : store.Clear) :
    ∃ genesis opened, resume name signer store = (.ok ⟨name, signer, genesis⟩, opened) ∧
      Standing opened [] genesis 1 ∧ genesis.mapRoot = SparseMap.emptyRoot := by
  obtain ⟨genesis, hgenesis⟩ := exists_headOver signs []
  have hsigned := (headOver_nil signer).symm.trans hgenesis
  obtain ⟨hsize, -, hroot, -⟩ := TreeHead.signed_ok hsigned
  have hupdate : store.update (storeHead genesis) = _ :=
    Store.update_of_clear clear (Write.put_apply headBucket headKey genesis.encode)
      (Store.isEmpty_pending_set _ _ _ _)
  have hresume := resume_of_empty name signer fresh hsigned
  rw [hupdate] at hresume
  have hnone : store.Within 0 := by
    refine Store.within_of_fits (fresh ▸ Contents.fits_empty) ?_
    rw [fresh]
    exact Nat.le_refl _
  have hwithin := within_resume short hnone name
  rw [hresume] at hwithin
  refine ⟨genesis, _, hresume, ?_, hroot⟩
  exact standing_of_tracks (tracks_begun store) (by rw [hroot]; rfl) hsize hwithin (by decide)

/-- **A batch of new keys** is accepted, if there is room. -/
theorem Standing.accept (h : Standing store pairs head count)
    (hnew : checkNew store.contents.snapshot head.mapRoot [] items = .ok ())
    {grown : LogView × Digest} {between : Draft}
    (hall : appendAll ⟨pairs.length⟩ head.mapRoot items ⟨store.contents, ∅⟩ = .ok (grown, between))
    (room : count + (roomPerPair * items.length + 1) < UInt64.size) :
    ∃ next after, commit signer store items = (.ok next, after) ∧
      Standing after (pairs ++ items) next (count + (roomPerPair * items.length + 1)) ∧
      next.mapRoot = grown.2 ∧ ∀ address, address ≠ headAddress →
        after.contents.snapshot address = between.get? address := by
  obtain ⟨roots, htracks, hroot⟩ := h.tracks
  have hbase := Draft.get?_base store.contents
  obtain ⟨next, hrun, hsize, hmap⟩ := htracks.exists_record signs (hbase.symm ▸ h.stored (by omega)) h.treeSize
    hroot (hbase.symm ▸ hnew) hall
  obtain ⟨later, hafter, -, hlast⟩ := htracks.appendAll hroot hall
  have hbatch : checkBatch signer items = .ok () := by
    rw [checkBatch_of_canSign signs]
    rcases checkSizes_cases items with ⟨hok, -⟩ | ⟨before, item, rest, rfl, -, hlarge, -⟩
    · exact hok
    · refine absurd (hafter.fits item ?_) hlarge
      exact List.mem_append_right _ (List.mem_append_right _ List.mem_cons_self)
  have hupdate := Store.update_of_clear h.clear hrun (Store.isEmpty_pending_set _ _ _ _)
  have hcommit : commit signer store items = store.update (record signer items) := by
    unfold commit
    simp only [hbatch]
  rw [hupdate] at hcommit
  have hitems : items.length ≤ UInt64.size := by
    have hmul := Nat.le_mul_of_pos_left items.length (show 0 < roomPerPair by decide)
    omega
  have hwithin := within_commit short h.within hitems
  rw [hcommit] at hwithin
  refine ⟨next, _, hcommit, ?_, hmap, fun address hne => ?_⟩
  · exact standing_of_tracks hafter (hmap ▸ hlast) hsize hwithin room
  · exact (Draft.getElem?_merged _ address).trans
      ((Draft.get?_set _ _ _ _ address).trans (if_neg hne))

omit signs short in
/-- A log that shows the head of a store shows the head over more pairs when it is to. -/
theorem Standing.publish_eq (h : Standing store pairs head count) (name : String) (signer : Signer)
    {next : TreeHead} {after : Store} {more : Nat} (h' : Standing after (pairs ++ items) next more) :
    publish ⟨name, signer, head⟩ next = ⟨name, signer, next⟩ := by
  have hle : head.treeSize ≤ next.treeSize := by
    rw [UInt64.le_iff_toNat_le, h.treeSize, h'.treeSize, List.length_append]
    exact Nat.le_add_right _ _
  exact publish_of_le hle

omit signs short in
theorem Standing.submit_eq (h : Standing store pairs head count) (name : String) {next : TreeHead}
    {after : Store} (hcommit : commit signer store items = (.ok next, after)) {more : Nat}
    (h' : Standing after (pairs ++ items) next more) :
    submit ⟨name, signer, head⟩ store items = (.ok next, ⟨name, signer, next⟩, after) :=
  submit_eq_ok_iff.mpr ⟨hcommit, (h.publish_eq name signer h').symm⟩

variable {first second : Record}

/-- A pair whose key belongs to a vacant half is accepted as a batch of its own. -/
theorem Standing.accept_one (h : Standing store pairs head count) (fitting : first.Fitting)
    (vacant : SparseMap.Vacant store.contents.snapshot head.mapRoot (SparseMap.side first.key))
    (room : count + (roomPerPair * 1 + 1) < UInt64.size) :
    ∃ next after, commit signer store [first] = (.ok next, after) ∧
      Standing after (pairs ++ [first]) next (count + (roomPerPair * 1 + 1)) ∧
      (head.mapRoot = SparseMap.emptyRoot →
        SparseMap.Vacant after.contents.snapshot next.mapRoot (!SparseMap.side first.key)) := by
  obtain ⟨roots, htracks, hroot⟩ := h.tracks
  have hnew : checkNew store.contents.snapshot head.mapRoot [] [first] = .ok () :=
    checkNew_of_vacant (List.nodup_singleton _) (by simp) (by simpa using vacant)
  rw [← Draft.get?_base] at vacant
  obtain ⟨root, between, -, hall, hother⟩ := htracks.exists_append hroot fitting vacant
  obtain ⟨next, after, hcommit, hafter, hmap, hframe⟩ := h.accept signs short hnew (hall []) room
  refine ⟨next, after, hcommit, hafter, fun hempty => ?_⟩
  rw [hmap]
  refine (hother hempty).congr fun address hbucket => hframe address fun heq => ?_
  exact headAddress_outside (.node root root) (heq ▸ hbucket)

/-- Two pairs whose keys belong to different halves are accepted as one batch. -/
theorem Standing.accept_two (h : Standing store pairs head count)
    (hempty : head.mapRoot = SparseMap.emptyRoot) (fitting : first.Fitting)
    (fitting' : second.Fitting) (halves : SparseMap.side second.key = !SparseMap.side first.key)
    (room : count + (roomPerPair * 2 + 1) < UInt64.size) :
    ∃ next after, commit signer store [first, second] = (.ok next, after) ∧
      Standing after (pairs ++ [first, second]) next (count + (roomPerPair * 2 + 1)) := by
  obtain ⟨roots, htracks, hroot⟩ := h.tracks
  have vacant (view : Snapshot) (key : Bytes) :
      SparseMap.Vacant view head.mapRoot (SparseMap.side key) := by
    rw [hempty]
    exact SparseMap.vacant_empty view _
  have hne : first.key ≠ second.key := by
    intro heq
    rw [heq] at halves
    cases hside : SparseMap.side second.key <;> rw [hside] at halves <;> cases halves
  have hnew : checkNew store.contents.snapshot head.mapRoot [] [first, second] = .ok () :=
    checkNew_of_vacant (by simpa using hne) (by simp) fun item _ => vacant _ _
  obtain ⟨root, between, hbetween, hall, hother⟩ :=
    htracks.exists_append hroot fitting (vacant _ _)
  have hvacant := hother hempty
  rw [← halves] at hvacant
  have hlast : (roots ++ [root])[(pairs ++ [first]).length]? = some root := by
    rw [List.length_append, List.length_singleton, ← htracks.length_roots]
    exact List.getElem?_concat_length
  obtain ⟨_, _, -, hall', -⟩ := hbetween.exists_append hlast fitting' hvacant
  obtain ⟨next, after, hcommit, hafter, -⟩ :=
    h.accept signs short hnew ((hall [second]).trans (hall' [])) room
  exact ⟨next, after, hcommit, hafter⟩

end Standing

/-! ## Two pairs -/

/-- A log that is opened on a store and is given two pairs, one after the other, or both at once. -/
structure Grown (name : String) (signer : Signer) (store : Store) (first second : Record) where
  (genesis one two both : TreeHead)
  (opened afterOne afterTwo afterBoth : Store)
  resume_eq : resume name signer store = (.ok ⟨name, signer, genesis⟩, opened)
  commit_one : commit signer opened [first] = (.ok one, afterOne)
  commit_two : commit signer afterOne [second] = (.ok two, afterTwo)
  commit_both : commit signer opened [first, second] = (.ok both, afterBoth)
  standing : Standing opened [] genesis 1
  standing_one : Standing afterOne [first] one (1 + (roomPerPair * 1 + 1))
  standing_two : Standing afterTwo [first, second] two
    (1 + (roomPerPair * 1 + 1) + (roomPerPair * 1 + 1))
  standing_both : Standing afterBoth [first, second] both (1 + (roomPerPair * 2 + 1))

/-- **A log on a fresh store** can be given any two pairs that fit and belong to different halves. -/
theorem exists_grown (name : String) {signer : Signer} (signs : signer.canSign = true)
    (short : signer.Short) {store : Store} (fresh : store.contents = ∅) (clear : store.Clear)
    {first second : Record} (fitting : first.Fitting) (fitting' : second.Fitting)
    (halves : SparseMap.side second.key = !SparseMap.side first.key) :
    Nonempty (Grown name signer store first second) := by
  obtain ⟨genesis, opened, hresume, hopened, hempty⟩ := exists_standing signs short name fresh clear
  have vacant : SparseMap.Vacant opened.contents.snapshot genesis.mapRoot
      (SparseMap.side first.key) := by
    rw [hempty]
    exact SparseMap.vacant_empty _ _
  obtain ⟨one, afterOne, hone, hstanding, hother⟩ :=
    hopened.accept_one signs short fitting vacant (by decide)
  have hvacant := hother hempty
  rw [← halves] at hvacant
  obtain ⟨two, afterTwo, htwo, hstanding', -⟩ :=
    hstanding.accept_one signs short fitting' hvacant (by decide)
  obtain ⟨both, afterBoth, hboth, hstanding''⟩ :=
    hopened.accept_two signs short hempty fitting fitting' halves (by decide)
  exact ⟨⟨genesis, one, two, both, opened, afterOne, afterTwo, afterBoth, hresume, hone, htwo, hboth,
    hopened, hstanding, hstanding', hstanding''⟩⟩

section Grown

variable {name : String} {signer : Signer} {store : Store} {first second : Record}
  (g : Grown name signer store first second)

theorem Grown.fits : g.opened.contents.Fits := g.standing.fits (by decide)

theorem Grown.fits_one : g.afterOne.contents.Fits := g.standing_one.fits (by decide)

theorem Grown.fits_two : g.afterTwo.contents.Fits := g.standing_two.fits (by decide)

theorem Grown.fits_both : g.afterBoth.contents.Fits := g.standing_both.fits (by decide)

theorem Grown.treeSize_one : g.one.treeSize = 1 := UInt64.toNat_inj.mp g.standing_one.treeSize

theorem Grown.treeSize_two : g.two.treeSize = 2 := UInt64.toNat_inj.mp g.standing_two.treeSize

theorem Grown.submit_one : submit ⟨name, signer, g.genesis⟩ g.opened [first] =
    (.ok g.one, ⟨name, signer, g.one⟩, g.afterOne) :=
  g.standing.submit_eq name g.commit_one g.standing_one

theorem Grown.submit_two : submit ⟨name, signer, g.one⟩ g.afterOne [second] =
    (.ok g.two, ⟨name, signer, g.two⟩, g.afterTwo) :=
  g.standing_one.submit_eq name g.commit_two g.standing_two

theorem Grown.submit_both : submit ⟨name, signer, g.genesis⟩ g.opened [first, second] =
    (.ok g.both, ⟨name, signer, g.both⟩, g.afterBoth) :=
  g.standing.submit_eq name g.commit_both g.standing_both

theorem Grown.answer_one : ServedLog.answer ⟨⟨name, signer, g.genesis⟩, g.opened⟩ (.submit [first]) =
    (.ok g.one, ⟨⟨name, signer, g.one⟩, g.afterOne⟩) := by
  simp only [ServedLog.answer, g.submit_one]

theorem Grown.answer_two : ServedLog.answer ⟨⟨name, signer, g.one⟩, g.afterOne⟩ (.submit [second]) =
    (.ok g.two, ⟨⟨name, signer, g.two⟩, g.afterTwo⟩) := by
  simp only [ServedLog.answer, g.submit_two]

variable (fresh : store.contents = ∅)

include fresh

/-- **Its run**: once it is opened, after the first pair, and after the second. -/
theorem Grown.reaches :
    SharedLog.Reaches name signer ⟨⟨name, signer, g.genesis⟩, g.opened, []⟩ [] [g.genesis] :=
  .opened fresh g.resume_eq g.fits

theorem Grown.reaches_one :
    SharedLog.Reaches name signer ⟨⟨name, signer, g.one⟩, g.afterOne, []⟩ [first]
      [g.genesis, g.one] :=
  ((g.reaches fresh).submit g.submit_one g.fits_one).1

theorem Grown.reaches_two :
    SharedLog.Reaches name signer ⟨⟨name, signer, g.two⟩, g.afterTwo, []⟩ [first, second]
      [g.genesis, g.one, g.two] :=
  ((g.reaches_one fresh).submit g.submit_two g.fits_two).1

end Grown

/-! ### Two keys of one byte -/

theorem side_one_ne_two : SparseMap.side [1] ≠ SparseMap.side [2] := by decide +kernel

theorem exists_grown_one_two (name : String) {store : Store} (fresh : store.contents = ∅)
    (clear : store.Clear) :
    Nonempty (Grown name Signer.mirror store ⟨[1], [5]⟩ ⟨[2], [6]⟩) := by
  refine exists_grown name rfl Signer.mirror_short fresh clear ?_ ?_ ?_
  · unfold Record.Fitting
    decide
  · unfold Record.Fitting
    decide
  · exact Bool.eq_not_of_ne side_one_ne_two.symm

/-- The entries of the two pairs do not hash to 32 zero bytes. -/
theorem nonzero_one_two :
    ∀ entry ∈ entriesOf [⟨[1], [5]⟩, ⟨[2], [6]⟩], sha256 entry.2 ≠ Digest.zero := by
  decide +kernel

end Ledger

end TransparencyLog
