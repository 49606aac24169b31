import TransparencyLog.Proofs.Ledger.Recorded

/-!
# Opening a store and submitting a batch

A store without contents is opened by storing a signed head over nothing; from then on its head is
over the pairs that are recorded. A batch is accepted when the signer can sign, every pair fits a
leaf, the keys are new and nothing is in the way of the commit. Otherwise the first of these checks
that fails tells the error. The checks are exact as long as no collision turns up among what is
hashed on the way.

* `Ledger.Heads`: the store holds the pairs under a head over them;
* `Ledger.resume_of_stored`, `Ledger.resume_fresh`: opening a store;
* `Acceptable`, `Refused`: what decides about a batch, and the error of one that is refused;
* `Ledger.hashedBy`: what is hashed on the way;
* `Ledger.checkSizes_cases`, `Ledger.checkNew_cases`: each check finds the first offender;
* `Ledger.update_record`: the answer of the transaction;
* **`Ledger.submit_answer`**: the answer to a batch; `Ledger.accepted_of_submit` if it is accepted;
* `Ledger.publish_cases`: whether a head that was committed comes to be shown.
-/

namespace TransparencyLog

/-! ## Heads -/

theorem TreeHead.signed_ok {signer : Signer} {treeSize : UInt64} {logRoot mapRoot : Digest}
    {head : TreeHead} (h : TreeHead.signed signer treeSize logRoot mapRoot = .ok head) :
    head.treeSize = treeSize ∧ head.logRoot = logRoot ∧ head.mapRoot = mapRoot ∧
      (signer.Honest → head.verify signer = true) := by
  unfold TreeHead.signed Signer.sign at h
  cases hsign : signer.sign? with
  | none =>
    rw [hsign] at h
    cases h
  | some sign =>
    rw [hsign] at h
    obtain rfl := Except.ok.inj h
    exact ⟨rfl, rfl, rfl, fun honest => honest sign hsign _⟩

theorem TreeHead.exists_signed {signer : Signer} (h : signer.canSign = true) (treeSize : UInt64)
    (logRoot mapRoot : Digest) : ∃ head, TreeHead.signed signer treeSize logRoot mapRoot = .ok head := by
  obtain ⟨sign, hsign⟩ := Option.isSome_iff_exists.mp h
  rw [TreeHead.signed, Signer.sign, hsign]
  exact ⟨_, rfl⟩

theorem TreeHead.canSign_of_signed {signer : Signer} {treeSize : UInt64} {logRoot mapRoot : Digest}
    {head : TreeHead} (h : TreeHead.signed signer treeSize logRoot mapRoot = .ok head) :
    signer.canSign = true := by
  unfold TreeHead.signed Signer.sign at h
  cases hsign : signer.sign? with
  | none =>
    rw [hsign] at h
    cases h
  | some sign =>
    rw [Signer.canSign, hsign]
    rfl

theorem TreeHead.length_encode (head : TreeHead) :
    head.encode.length = 80 + head.signature.length := by
  simp only [TreeHead.encode, Binary.word, Binary.block, List.length_append,
    Bytes.length_littleEndian, Digest.length_eq]
  omega

namespace Ledger

theorem storedHead_of_empty {contents : Contents} (fresh : contents = ∅) :
    storedHead contents.snapshot = .error (.notFound headBucket headKey) := by
  rw [storedHead, Snapshot.fetch, Contents.snapshot, fresh, Std.ExtTreeMap.getElem?_empty]
  rfl

/-- The store holds the pairs, under a head over them. -/
structure Heads (contents : Contents) (pairs : List Record) (head : TreeHead) : Prop where
  recorded : Recorded contents.snapshot pairs
  stored : contents.snapshot headAddress = some head.encode
  treeSize : head.treeSize = UInt64.ofNat pairs.length
  logRoot : head.logRoot = Tree.rootOf (leavesOf pairs)
  mapRoot : head.mapRoot = SparseMap.rootOf (entriesOf pairs)

theorem Heads.toNat_treeSize {contents : Contents} {pairs : List Record} {head : TreeHead}
    (h : Heads contents pairs head) (fits : contents.Fits) :
    head.treeSize.toNat = pairs.length := by
  rw [h.treeSize]
  exact UInt64.toNat_ofNat_of_lt' (h.recorded.length_lt fits)

/-- The lengths in a head that is stored fit, so it reads back. -/
theorem storedHead_of_fits {contents : Contents} {head : TreeHead} (fits : contents.Fits)
    (h : contents.snapshot headAddress = some head.encode) :
    head.signature.length < UInt64.size ∧ storedHead contents.snapshot = .ok head := by
  have hsign : head.signature.length < UInt64.size := by
    have hlt := (fits.entry_lt _ _ h).2.2
    rw [head.length_encode] at hlt
    omega
  refine ⟨hsign, ?_⟩
  rw [storedHead, Snapshot.fetch_eq_ok_iff.mpr h]
  exact TreeHead.decode_encode hsign

theorem Heads.storedHead_eq {contents : Contents} {pairs : List Record} {head : TreeHead}
    (h : Heads contents pairs head) (fits : contents.Fits) :
    storedHead contents.snapshot = .ok head :=
  (storedHead_of_fits fits h.stored).2

theorem exists_headOver {signer : Signer} (h : signer.canSign = true) (pairs : List Record) :
    ∃ head, headOver signer pairs = .ok head := TreeHead.exists_signed h _ _ _

/-- A head is stored over what a draft has recorded. -/
theorem heads_merged {signer : Signer} {draft : Draft} {pairs : List Record} {head : TreeHead}
    (h : Recorded draft.get? pairs) (hsigned : headOver signer pairs = .ok head) :
    Heads (draft.set headBucket headKey head.encode).merged pairs head := by
  obtain ⟨hsize, hlogRoot, hmapRoot, _⟩ := TreeHead.signed_ok hsigned
  have hmerged : (draft.set headBucket headKey head.encode).merged.snapshot =
      (draft.set headBucket headKey head.encode).get? := funext (Draft.getElem?_merged _)
  refine ⟨?_, ?_, hsize, hlogRoot, hmapRoot⟩ <;> rw [hmerged]
  · exact recorded_set_head h _
  · exact get?_set_head draft _

/-! ## Opening -/

section Resume

variable (name : String) (signer : Signer) {store : Store} {head genesis : TreeHead}
  {error : LogError}

theorem resume_of_stored (h : storedHead store.contents.snapshot = .ok head) :
    Ledger.resume name signer store = if head.verify signer then (.ok ⟨name, signer, head⟩, store)
      else (.error .badSignature, store) := by
  unfold Ledger.resume Store.view
  rw [h]

/-- A store with a head that can be opened is opened with that head, and stays as it is. -/
theorem of_resume_stored (h : storedHead store.contents.snapshot = .ok head) {ledger : Ledger}
    {store' : Store} (step : Ledger.resume name signer store = (.ok ledger, store')) :
    ledger = ⟨name, signer, head⟩ ∧ store' = store := by
  rw [resume_of_stored name signer h] at step
  split at step <;> cases step
  exact ⟨rfl, rfl⟩

/-- A store without contents is opened by storing a head over nothing. -/
theorem resume_of_empty (fresh : store.contents = ∅)
    (h : TreeHead.signed signer 0 emptyRoot SparseMap.emptyRoot = .ok genesis) :
    Ledger.resume name signer store =
      ((store.update (storeHead genesis)).1.map fun _ => ⟨name, signer, genesis⟩,
        (store.update (storeHead genesis)).2) := by
  unfold Ledger.resume Store.view
  rw [storedHead_of_empty fresh]
  simp only [LogError.isNotFound, if_true, h]

theorem resume_of_empty_error (fresh : store.contents = ∅)
    (h : TreeHead.signed signer 0 emptyRoot SparseMap.emptyRoot = .error error) :
    Ledger.resume name signer store = (.error error, store) := by
  unfold Ledger.resume Store.view
  rw [storedHead_of_empty fresh]
  simp only [LogError.isNotFound, if_true, h]

/-- **Opening a store without contents** stores a head over nothing, or leaves the store alone. -/
theorem resume_fresh (fresh : store.contents = ∅) :
    (∃ genesis contents, headOver signer [] = .ok genesis ∧ Heads contents [] genesis ∧
      Ledger.resume name signer store =
        (.ok ⟨name, signer, genesis⟩, ⟨contents, Store.written store.medium contents⟩)) ∨
    ∃ error store', Ledger.resume name signer store = (.error error, store') ∧
      store.Alike store' := by
  cases hsigned : TreeHead.signed signer 0 emptyRoot SparseMap.emptyRoot with
  | error e => exact Or.inr ⟨e, store, resume_of_empty_error name signer fresh hsigned, .refl store⟩
  | ok genesis =>
    have hresume := resume_of_empty name signer fresh hsigned
    have hrun : storeHead genesis ⟨store.contents, ∅⟩ = .ok ((), _) :=
      Write.put_apply headBucket headKey genesis.encode
    have hwritten := Store.isEmpty_pending_set ⟨store.contents, ∅⟩ headBucket headKey genesis.encode
    by_cases hclear : store.Clear
    · rw [Store.update_of_clear hclear hrun hwritten] at hresume
      have hhead := (headOver_nil signer).trans hsigned
      exact Or.inl ⟨genesis, _, hhead, heads_merged (recorded_nil _) hhead, hresume⟩
    · obtain ⟨store', hupdate, halike⟩ := Store.update_of_not_clear hclear hrun hwritten
      rw [hupdate] at hresume
      exact Or.inr ⟨_, store', hresume, halike⟩

end Resume

end Ledger

/-! ## What decides -/

/-- The record of the pair fits a leaf. -/
def Record.Fitting (item : Record) : Prop := item.key.length + item.value.length ≤ 65531

/-- The keys of a batch are different, and none of them is taken. -/
structure NewKeys (taken : List Bytes) (items : List Record) : Prop where
  different : (items.map Record.key).Nodup
  untaken : ∀ item ∈ items, item.key ∉ taken

/-- A batch that is accepted behind the pairs that are recorded. -/
structure Acceptable (signer : Signer) (store : Store) (pairs items : List Record) : Prop where
  signs : signer.canSign = true
  fitting : ∀ item ∈ items, item.Fitting
  new : NewKeys (pairs.map Record.key) items
  clear : store.Clear

/-- The error of a batch that is refused: each check is made once the ones before it have passed,
and takes the pairs in order. -/
inductive Refused (signer : Signer) (store : Store) (pairs items : List Record) : LogError → Prop
  | cannotSign (cannot : signer.canSign = false) : Refused signer store pairs items .cannotSign
  | tooLarge (signs : signer.canSign = true) {before after : List Record} {item : Record}
    (split : items = before ++ item :: after) (fitting : ∀ other ∈ before, other.Fitting)
    (large : ¬ item.Fitting) :
    Refused signer store pairs items (.recordTooLarge (item.key.length + item.value.length + 4))
  | duplicate (signs : signer.canSign = true) (fitting : ∀ item ∈ items, item.Fitting)
    {before after : List Record} {item : Record} (split : items = before ++ item :: after)
    (new : NewKeys (pairs.map Record.key) before)
    (known : item.key ∈ pairs.map Record.key ∨ item.key ∈ before.map Record.key) :
    Refused signer store pairs items (.duplicateKey item.key)
  | blocked (signs : signer.canSign = true) (fitting : ∀ item ∈ items, item.Fitting)
    (new : NewKeys (pairs.map Record.key) items) (blocked : ¬ store.Clear) :
    Refused signer store pairs items (.storage .unwritable)

theorem not_acceptable_of_refused {signer : Signer} {store : Store} {pairs items : List Record}
    {error : LogError} (h : Refused signer store pairs items error) :
    ¬ Acceptable signer store pairs items := by
  intro acceptable
  cases h with
  | cannotSign cannot =>
    rw [acceptable.signs] at cannot
    cases cannot
  | tooLarge _ split _ large =>
    subst split
    exact large (acceptable.fitting _ (List.mem_append_right _ List.mem_cons_self))
  | duplicate _ _ split _ known =>
    subst split
    rcases known with hmem | hmem
    · exact acceptable.new.untaken _ (List.mem_append_right _ List.mem_cons_self) hmem
    · have hnodup := acceptable.new.different
      rw [List.map_append, List.map_cons] at hnodup
      exact (List.nodup_append.mp hnodup).2.2 _ hmem _ List.mem_cons_self rfl
  | blocked _ _ _ blocked => exact blocked acceptable.clear

theorem NewKeys.cons {taken : List Bytes} {item : Record} {rest : List Record}
    (hrest : NewKeys (item.key :: taken) rest) (hitem : item.key ∉ taken) :
    NewKeys taken (item :: rest) where
  different := by
    refine List.nodup_cons.mpr ⟨fun hmem => ?_, hrest.different⟩
    obtain ⟨other, hother, hkey⟩ := List.mem_map.mp hmem
    exact hrest.untaken other hother (hkey ▸ List.mem_cons_self)
  untaken := List.forall_mem_cons.mpr
    ⟨hitem, fun other hother hmem => hrest.untaken other hother (List.mem_cons_of_mem _ hmem)⟩

theorem NewKeys.nodup_append {pairs items : List Record}
    (hnew : NewKeys (pairs.map Record.key) items) (hnodup : (pairs.map Record.key).Nodup) :
    ((pairs ++ items).map Record.key).Nodup := by
  rw [List.map_append]
  refine List.nodup_append.mpr ⟨hnodup, hnew.different, ?_⟩
  rintro key hkey _ hother rfl
  obtain ⟨item, hitem, rfl⟩ := List.mem_map.mp hother
  exact hnew.untaken item hitem hkey

namespace Ledger

/-! ## What is hashed -/

/-- What is hashed on the way: for the pairs recorded, for the keys that are looked up, and for the
pairs recorded afterwards if the keys are new. -/
def hashedBy (pairs items : List Record) : Set Bytes :=
  {s | s ∈ hashed pairs ∨ (∃ item ∈ items, s = item.key) ∨
    ((pairs ++ items).map Record.key).Nodup ∧ s ∈ hashed (pairs ++ items)}

theorem hashed_subset_hashedBy (pairs items : List Record) : hashed pairs ⊆ hashedBy pairs items :=
  fun _ hs => Or.inl hs

theorem hashedBy_of_nodup {pairs items : List Record}
    (h : ((pairs ++ items).map Record.key).Nodup) : hashed (pairs ++ items) ⊆ hashedBy pairs items :=
  fun _ hs => Or.inr (Or.inr ⟨h, hs⟩)

theorem hashedBy_subset (pairs items : List Record) :
    hashedBy pairs items ⊆ hashed (pairs ++ items) := by
  rintro s (hs | ⟨item, hitem, rfl⟩ | ⟨_, hs⟩)
  · exact hashed_append pairs items hs
  · exact key_mem_hashed (List.mem_append_right _ hitem)
  · exact hs

/-! ## The checks -/

theorem checkSize_of_fitting {item : Record} (h : item.Fitting) :
    Record.checkSize item.key item.value = .ok () := if_neg (Nat.not_lt.mpr h)

theorem checkSize_of_not_fitting {item : Record} (h : ¬ item.Fitting) :
    Record.checkSize item.key item.value =
      .error (.recordTooLarge (item.key.length + item.value.length + 4)) :=
  if_pos (Nat.not_le.mp h)

theorem checkSizes_cases (items : List Record) :
    (checkSizes items = .ok () ∧ ∀ item ∈ items, item.Fitting) ∨
    ∃ before item after, items = before ++ item :: after ∧ (∀ other ∈ before, other.Fitting) ∧
      ¬ item.Fitting ∧
      checkSizes items = .error (.recordTooLarge (item.key.length + item.value.length + 4)) := by
  induction items with
  | nil => exact Or.inl ⟨rfl, fun _ hitem => absurd hitem List.not_mem_nil⟩
  | cons item rest ih =>
    by_cases hitem : item.Fitting
    · have hcheck : checkSizes (item :: rest) = checkSizes rest := by
        rw [checkSizes, checkSize_of_fitting hitem]
        rfl
      rw [hcheck]
      rcases ih with ⟨hok, hrest⟩ | ⟨before, other, after, hsplit, hbefore, hlarge, herror⟩
      · exact Or.inl ⟨hok, List.forall_mem_cons.mpr ⟨hitem, hrest⟩⟩
      · refine Or.inr ⟨item :: before, other, after, ?_, ?_, hlarge, herror⟩
        · rw [hsplit, List.cons_append]
        · exact List.forall_mem_cons.mpr ⟨hitem, hbefore⟩
    · refine Or.inr ⟨[], item, rest, rfl, fun _ hother => absurd hother List.not_mem_nil, hitem, ?_⟩
      rw [checkSizes, checkSize_of_not_fitting hitem]
      rfl

/-- The check goes through the batch with the keys already seen; together with those that the map
holds they are the keys that are taken. -/
theorem checkNew_cases {view : Snapshot} {mapRoot : Digest} {seen taken : List Bytes}
    {items : List Record} (hget : ∀ item ∈ items, ∃ found,
      SparseMap.get view mapRoot item.key = .ok found ∧
        (item.key ∈ taken ↔ item.key ∈ seen ∨ found.isSome)) :
    (checkNew view mapRoot seen items = .ok () ∧ NewKeys taken items) ∨
    ∃ before item after, items = before ++ item :: after ∧ NewKeys taken before ∧
      (item.key ∈ taken ∨ item.key ∈ before.map Record.key) ∧
      checkNew view mapRoot seen items = .error (.duplicateKey item.key) := by
  induction items generalizing seen taken with
  | nil => exact Or.inl ⟨rfl, List.nodup_nil, fun _ hitem => absurd hitem List.not_mem_nil⟩
  | cons item rest ih =>
    obtain ⟨found, hfound, htaken⟩ := hget item List.mem_cons_self
    by_cases hitem : item.key ∈ taken
    · refine Or.inr ⟨[], item, rest, rfl, ⟨List.nodup_nil, ?_⟩, Or.inl hitem, ?_⟩
      · exact fun _ hother => absurd hother List.not_mem_nil
      rw [checkNew]
      by_cases hseen : seen.contains item.key = true
      · rw [if_pos hseen]
        rfl
      · have hsome : found.isSome = true :=
          (htaken.mp hitem).resolve_left (mt List.contains_iff_mem.mpr hseen)
        rw [if_neg hseen, hfound]
        simp only [bind, Except.bind, hsome, if_true]
        rfl
    · obtain ⟨hseen, hsome⟩ := not_or.mp (mt htaken.mpr hitem)
      have hcheck : checkNew view mapRoot seen (item :: rest) =
          checkNew view mapRoot (item.key :: seen) rest := by
        rw [checkNew, if_neg (mt List.contains_iff_mem.mp hseen), hfound]
        simp only [bind, Except.bind, if_neg hsome]
      have hrest : ∀ other ∈ rest, ∃ found, SparseMap.get view mapRoot other.key = .ok found ∧
          (other.key ∈ item.key :: taken ↔ other.key ∈ item.key :: seen ∨ found.isSome) := by
        intro other hother
        obtain ⟨found, hfound, htaken⟩ := hget other (List.mem_cons_of_mem _ hother)
        refine ⟨found, hfound, ?_⟩
        rw [List.mem_cons, List.mem_cons, htaken, or_assoc]
      rw [hcheck]
      rcases ih hrest with ⟨hok, hnew⟩ | ⟨before, other, after, hsplit, hnew, hknown, herror⟩
      · exact Or.inl ⟨hok, hnew.cons hitem⟩
      · refine Or.inr ⟨item :: before, other, after, ?_, hnew.cons hitem, ?_, herror⟩
        · rw [hsplit, List.cons_append]
        · rw [List.mem_cons] at hknown
          rw [List.map_cons, List.mem_cons, or_left_comm, ← or_assoc]
          exact hknown

/-- The keys that the map holds are those that are recorded. -/
theorem get_item {view : Snapshot} {pairs items : List Record} (h : Recorded view pairs)
    (hun : Unambiguous pairs) (hinj : Set.InjOn sha256 (hashedBy pairs items)) {item : Record}
    (hitem : item ∈ items) :
    ∃ found, SparseMap.get view (SparseMap.rootOf (entriesOf pairs)) item.key = .ok found ∧
      (item.key ∈ pairs.map Record.key ↔ item.key ∈ [] ∨ found.isSome) := by
  have hkey : ∀ pair ∈ pairs, ¬ Collides item.key pair.key := by
    intro pair hpair hcollides
    exact hcollides.1 (hinj (Or.inr (Or.inl ⟨item, hitem, rfl⟩)) (Or.inl (key_mem_hashed hpair))
      hcollides.2)
  refine ⟨_, get_eq h hun item.key, ?_⟩
  rcases valuesOf_cases hkey with ⟨index, hindex, hsame, hvalue⟩ | ⟨hnone, hvalue⟩
  · have hmem : item.key ∈ pairs.map Record.key :=
      List.mem_map.mpr ⟨_, List.getElem_mem hindex, hsame⟩
    simp [hvalue, hmem]
  · have hmem : item.key ∉ pairs.map Record.key := by
      rintro hmem
      obtain ⟨pair, hpair, hsame⟩ := List.mem_map.mp hmem
      exact hnone pair hpair hsame
    simp [hvalue, hmem]

/-! ## The answer to a batch -/

theorem checkBatch_of_canSign {signer : Signer} (h : signer.canSign = true) (items : List Record) :
    checkBatch signer items = checkSizes items := by
  unfold checkBatch
  rw [h]
  rfl

theorem checkBatch_of_not_canSign {signer : Signer} (h : signer.canSign = false)
    (items : List Record) : checkBatch signer items = .error .cannotSign := by
  unfold checkBatch
  rw [h]
  rfl

section Answer

variable {ledger : Ledger} {store store' : Store} {items : List Record} {head : TreeHead}
  {error : LogError}

theorem submit_of_check_error (h : checkBatch ledger.signer items = .error error) :
    ledger.submit store items = (.error error, ledger, store) := by
  unfold submit commit
  rw [h]

theorem submit_of_update_error (hcheck : checkBatch ledger.signer items = .ok ())
    (h : store.update (record ledger.signer items) = (.error error, store')) :
    ledger.submit store items = (.error error, ledger, store') := by
  unfold submit commit
  simp only [hcheck, h]

theorem submit_of_update_ok (hcheck : checkBatch ledger.signer items = .ok ())
    (h : store.update (record ledger.signer items) = (.ok head, store')) :
    ledger.submit store items = (.ok head, ledger.publish head, store') := by
  unfold submit commit
  simp only [hcheck, h]

/-- A submission that succeeds has committed its batch, and its head is to be shown. -/
theorem submit_eq_ok_iff {ledger' : Ledger} : ledger.submit store items = (.ok head, ledger', store') ↔
    commit ledger.signer store items = (.ok head, store') ∧ ledger' = ledger.publish head := by
  unfold submit
  rcases commit ledger.signer store items with ⟨_ | next, after⟩
  · constructor
    · rintro ⟨⟩
    · rintro ⟨⟨⟩, -⟩
  · constructor
    · rintro ⟨⟩
      exact ⟨rfl, rfl⟩
    · rintro ⟨⟨⟩, rfl⟩
      rfl

theorem submit_eq_error_iff {ledger' : Ledger} :
    ledger.submit store items = (.error error, ledger', store') ↔
      commit ledger.signer store items = (.error error, store') ∧ ledger' = ledger := by
  unfold submit
  rcases commit ledger.signer store items with ⟨_ | next, after⟩
  · constructor
    · rintro ⟨⟩
      exact ⟨rfl, rfl⟩
    · rintro ⟨⟨⟩, rfl⟩
      rfl
  · constructor
    · rintro ⟨⟩
    · rintro ⟨⟨⟩, -⟩

/-- A batch that is committed has passed its transaction, and the store holds what that has left. -/
theorem exists_of_commit {signer : Signer} (h : commit signer store items = (.ok head, store')) :
    ∃ draft, record signer items ⟨store.contents, ∅⟩ = .ok (head, draft) ∧
      store' = ⟨draft.merged, Store.written store.medium draft.merged⟩ := by
  unfold commit at h
  cases hcheck : checkBatch signer items with
  | error e =>
    rw [hcheck] at h
    cases h
  | ok _ =>
  simp only [hcheck] at h
  cases hrun : record signer items ⟨store.contents, ∅⟩ with
  | error e =>
    rw [Store.update_of_error hrun] at h
    cases h
  | ok result =>
  obtain ⟨next, draft⟩ := result
  obtain ⟨-, -, -, between, -, -, -, -, -, rfl⟩ := exists_of_record hrun
  have hwritten := Store.isEmpty_pending_set between headBucket headKey next.encode
  obtain ⟨rfl, rfl⟩ := Store.of_update_ok hrun hwritten h
  exact ⟨_, rfl, rfl⟩

/-- A batch that cannot be committed leaves a store like the one before. -/
theorem alike_of_commit_error {signer : Signer}
    (h : commit signer store items = (.error error, store')) : store.Alike store' := by
  unfold commit at h
  cases hcheck : checkBatch signer items with
  | error e =>
    simp only [hcheck] at h
    obtain ⟨-, rfl⟩ := Prod.mk.inj h
    exact .refl _
  | ok _ =>
    simp only [hcheck] at h
    exact Store.update_alike h

/-- A batch that is refused leaves the ledger and a store like the one before. -/
theorem alike_of_submit_error {ledger' : Ledger}
    (h : ledger.submit store items = (.error error, ledger', store')) :
    ledger' = ledger ∧ store.Alike store' := by
  obtain ⟨hcommit, rfl⟩ := submit_eq_error_iff.mp h
  exact ⟨rfl, alike_of_commit_error hcommit⟩

/-! ### Faults -/

variable {fault : Option Fault}

/-- A fault does not matter to an opening, or it fails and leaves the contents as they were. -/
theorem resume_fault (name : String) (signer : Signer) (store : Store) (fault : Option Fault) :
    resume name signer store fault = resume name signer store ∨
      ∃ store', resume name signer store fault = (.error (.storage .unwritable), store') ∧
        store'.contents = store.contents := by
  unfold resume
  cases store.view storedHead with
  | ok head => exact Or.inl rfl
  | error e =>
    by_cases hfresh : e.isNotFound = true
    case neg => exact Or.inl (by simp only [if_neg hfresh])
    simp only [if_pos hfresh]
    cases TreeHead.signed signer 0 emptyRoot SparseMap.emptyRoot with
    | error e => exact Or.inl rfl
    | ok genesis =>
      rcases store.update_fault (storeHead genesis) fault with heq | ⟨-, store', heq, hsame, -⟩
      · exact Or.inl (by simp only [heq])
      · exact Or.inr ⟨store', by simp only [heq]; rfl, hsame⟩

/-- A fault does not matter to a submission, or it makes the commit fail. That leaves the ledger and the
contents as they were, and the file too if its scratch file has a path of its own. -/
theorem submit_fault (ledger : Ledger) (store : Store) (items : List Record) (fault : Option Fault) :
    ledger.submit store items fault = ledger.submit store items ∨
      (∀ error, (ledger.submit store items).1 = .error error → error = .storage .unwritable) ∧
        ∃ store', ledger.submit store items fault = (.error (.storage .unwritable), ledger, store') ∧
          store'.contents = store.contents ∧ (store.Apart → store.Alike store') := by
  unfold submit commit
  cases checkBatch ledger.signer items with
  | error e => exact Or.inl rfl
  | ok _ =>
    rcases store.update_fault (record ledger.signer items) fault with
      heq | ⟨hcause, store', heq, hsame⟩
    · exact Or.inl (by simp only [heq])
    · refine Or.inr ⟨fun error herror => hcause error ?_, store', by simp only [heq], hsame⟩
      rcases hupdate : store.update (record ledger.signer items) with ⟨outcome, after⟩
      simp only [hupdate] at herror
      cases outcome with
      | ok head => cases herror
      | error e => exact herror

theorem submit_of_spared (spared : store.Spared fault) :
    ledger.submit store items fault = ledger.submit store items := by
  unfold submit commit
  cases checkBatch ledger.signer items with
  | error e => rfl
  | ok _ => simp only [Store.update_of_spared spared]

/-- A batch that is refused, for whatever reason, leaves the ledger and the contents as they were, and the
file too if no fault strikes it or its scratch file has a path of its own. -/
theorem unchanged_of_submit_error {ledger' : Ledger}
    (h : ledger.submit store items fault = (.error error, ledger', store')) :
    ledger' = ledger ∧ store'.contents = store.contents ∧
      (store.Spared fault ∨ store.Apart → store.Alike store') := by
  have hspared (spared : store.Spared fault) : store.Alike store' :=
    (alike_of_submit_error ((submit_of_spared spared).symm.trans h)).2
  rcases ledger.submit_fault store items fault with heq | ⟨-, after, heq, hsame, halike⟩
  · obtain ⟨rfl, halike⟩ := alike_of_submit_error (heq.symm.trans h)
    exact ⟨rfl, halike.contents, fun _ => halike⟩
  · obtain ⟨-, hrest⟩ := Prod.mk.inj (heq.symm.trans h)
    obtain ⟨rfl, rfl⟩ := Prod.mk.inj hrest
    exact ⟨rfl, hsame, fun hcases => hcases.elim hspared halike⟩

theorem submit_of_ok_fault {ledger' : Ledger}
    (h : ledger.submit store items fault = (.ok head, ledger', store')) :
    ledger.submit store items = (.ok head, ledger', store') := by
  rcases ledger.submit_fault store items fault with heq | ⟨-, after, heq, -⟩
  · exact heq.symm.trans h
  · cases heq.symm.trans h

end Answer

section Submit

variable {store : Store} {pairs items : List Record} {head : TreeHead} {signer : Signer}

/-- **The answer of the transaction** for a batch that has passed the checks before it. -/
theorem update_record (heads : Heads store.contents pairs head) (fits : store.contents.Fits)
    (hun : Unambiguous pairs) (hinj : Set.InjOn sha256 (hashedBy pairs items))
    (signs : signer.canSign = true) (fitting : ∀ item ∈ items, item.Fitting) :
    (NewKeys (pairs.map Record.key) items ∧ store.Clear ∧ ∃ next contents,
      headOver signer (pairs ++ items) = .ok next ∧ Heads contents (pairs ++ items) next ∧
        store.update (record signer items) =
          (.ok next, ⟨contents, Store.written store.medium contents⟩)) ∨
    ∃ error store', Refused signer store pairs items error ∧
      store.update (record signer items) = (.error error, store') := by
  have hbase : (⟨store.contents, ∅⟩ : Draft).get? = store.contents.snapshot := Draft.get?_base _
  have hhead := heads.storedHead_eq fits
  have hchecked := checkNew_cases fun item hitem => get_item heads.recorded hun hinj hitem
  have hrecorded := heads.recorded
  rw [← heads.mapRoot] at hchecked
  rw [← hbase] at hhead hchecked hrecorded
  rcases hchecked with ⟨hcheck, hnew⟩ | ⟨before, item, after, hsplit, hnew, hknown, hcheck⟩
  case inr =>
    exact Or.inr ⟨_, store, .duplicate signs fitting hsplit hnew hknown,
      Store.update_of_error (record_of_checkNew_error hhead hcheck)⟩
  have hnodup := hnew.nodup_append heads.recorded.nodup
  obtain ⟨between, hbetween, hrecord⟩ := record_run signer hrecorded
    (hinj.mono (hashedBy_of_nodup hnodup)) hnodup fitting hhead (heads.toNat_treeSize fits)
    heads.mapRoot hcheck
  obtain ⟨next, hnext⟩ := exists_headOver signs (pairs ++ items)
  rw [hnext] at hrecord
  have hwritten := Store.isEmpty_pending_set between headBucket headKey next.encode
  by_cases hclear : store.Clear
  · exact Or.inl ⟨hnew, hclear, next, _, hnext, heads_merged hbetween hnext,
      Store.update_of_clear hclear hrecord hwritten⟩
  · obtain ⟨store', hupdate, _⟩ := Store.update_of_not_clear hclear hrecord hwritten
    exact Or.inr ⟨_, store', .blocked signs fitting hnew hclear, hupdate⟩

/-- **The answer to a batch**: it is acceptable and is recorded, or it is refused. -/
theorem submit_answer (ledger : Ledger) (heads : Heads store.contents pairs head)
    (fits : store.contents.Fits) (hun : Unambiguous pairs)
    (hinj : Set.InjOn sha256 (hashedBy pairs items)) :
    (Acceptable ledger.signer store pairs items ∧ ∃ next contents,
      headOver ledger.signer (pairs ++ items) = .ok next ∧ Heads contents (pairs ++ items) next ∧
        ledger.submit store items =
          (.ok next, ledger.publish next, ⟨contents, Store.written store.medium contents⟩)) ∨
    ∃ error store', Refused ledger.signer store pairs items error ∧
      ledger.submit store items = (.error error, ledger, store') := by
  cases hsign : ledger.signer.canSign with
  | false =>
    exact Or.inr ⟨_, store, .cannotSign hsign,
      submit_of_check_error (checkBatch_of_not_canSign hsign items)⟩
  | true =>
  have hbatch := checkBatch_of_canSign hsign items
  rcases checkSizes_cases items with ⟨hsizes, hfitting⟩ |
    ⟨before, item, after, hsplit, hbefore, hlarge, hsizes⟩
  · have hchecked := hbatch.trans hsizes
    rcases update_record heads fits hun hinj hsign hfitting with
      ⟨hnew, hclear, next, contents, hnext, hheads, hupdate⟩ | ⟨error, store', hrefused, hupdate⟩
    · exact Or.inl ⟨⟨hsign, hfitting, hnew, hclear⟩, next, contents, hnext, hheads,
        submit_of_update_ok hchecked hupdate⟩
    · exact Or.inr ⟨error, store', hrefused, submit_of_update_error hchecked hupdate⟩
  · exact Or.inr ⟨_, store, .tooLarge hsign hsplit hbefore hlarge,
      submit_of_check_error (hbatch.trans hsizes)⟩

section Accepted

variable {ledger ledger' : Ledger} {store' : Store} {next : TreeHead}
  (heads : Heads store.contents pairs head) (fits : store.contents.Fits) (hun : Unambiguous pairs)
  (hinj : Set.InjOn sha256 (hashedBy pairs items))

include heads fits hun hinj

theorem exists_submit (h : Acceptable ledger.signer store pairs items) :
    ∃ next ledger' store', ledger.submit store items = (.ok next, ledger', store') := by
  rcases submit_answer ledger heads fits hun hinj with
    ⟨-, next, contents, -, -, hok⟩ | ⟨error, after, hrefused, -⟩
  · exact ⟨next, _, _, hok⟩
  · exact absurd h (not_acceptable_of_refused hrefused)

/-- A batch that has been accepted was acceptable and is recorded, under a head over all pairs. -/
theorem accepted_of_submit (h : ledger.submit store items = (.ok next, ledger', store')) :
    Acceptable ledger.signer store pairs items ∧
      headOver ledger.signer (pairs ++ items) = .ok next ∧
      Heads store'.contents (pairs ++ items) next ∧ store'.Clear := by
  rcases submit_answer ledger heads fits hun hinj with
    ⟨hacceptable, next, contents, hnext, hheads, hok⟩ | ⟨error, after, -, herror⟩
  · cases hok.symm.trans h
    exact ⟨hacceptable, hnext, hheads, Store.clear_written _ _⟩
  · cases herror.symm.trans h

end Accepted

end Submit

/-- A committed head that is no smaller than the one shown is shown. -/
theorem publish_of_le {ledger : Ledger} {head : TreeHead}
    (h : ledger.head.treeSize ≤ head.treeSize) : ledger.publish head = { ledger with head } :=
  if_pos h

theorem signer_publish (ledger : Ledger) (head : TreeHead) :
    (ledger.publish head).signer = ledger.signer := by
  unfold publish
  split <;> rfl

/-- A head is shown, or a larger one is and stays. -/
theorem publish_cases (ledger : Ledger) (head : TreeHead) :
    (ledger.head.treeSize ≤ head.treeSize ∧ ledger.publish head = { ledger with head }) ∨
      (head.treeSize < ledger.head.treeSize ∧ ledger.publish head = ledger) := by
  by_cases hle : ledger.head.treeSize ≤ head.treeSize
  · exact Or.inl ⟨hle, publish_of_le hle⟩
  · exact Or.inr ⟨UInt64.not_le.mp hle, if_neg hle⟩

/-- Of two heads that are shown one after the other, the second decides, if it is no smaller. -/
theorem publish_publish {ledger : Ledger} {first second : TreeHead}
    (h : first.treeSize ≤ second.treeSize) :
    (ledger.publish first).publish second = ledger.publish second := by
  rcases publish_cases ledger first with ⟨hle, heq⟩ | ⟨-, heq⟩
  · rw [heq, publish_of_le h, publish_of_le (UInt64.le_trans hle h)]
  · rw [heq]

end Ledger

end TransparencyLog
