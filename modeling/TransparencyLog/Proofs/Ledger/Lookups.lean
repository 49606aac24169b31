import TransparencyLog.Proofs.Ledger.Issued
import TransparencyLog.Proofs.Ledger.Submission
import TransparencyLog.Proofs.SparseMap.Addressed
import TransparencyLog.Proofs.SparseMap.Versions

/-!
# Every answer has its proof

A log that is asked for a key under some root takes the root as it comes. Nodes of the log and heads
stand outside the buckets of the map, and a batch writes nothing into them but entries under their
hashes. So in every session, whatever was submitted, refused or read again, a value that a log hands out
is proven by the proof beside it, and no query fails on its own proof.

* `Ledger.record_keeps`, `Ledger.resume_addressed`: what a log writes is under its hash;
* `Session.call_addressed`, **`Session.addressed_of_reached`**: a call, and a whole session;
* `Ledger.verify_of_mapValue`, `Ledger.query_ne_invalidProof`: answers;
* **`lookups_supported`**: no answer without its proof, of a map or of a log.
-/

namespace TransparencyLog

open SparseMap (Addressed KeyMap Outside versionInputs)

/-! ## What a log writes -/

namespace Ledger

theorem append_keeps (log : LogView) (data : Bytes) : (log.append data).Keeps Addressed :=
  Tree.append_keeps (fun level index bytes _ h => h.set_outside (address_outside level index) bytes)
    log data

theorem appendAll_keeps (log : LogView) (mapRoot : Digest) (items : List Record) :
    (appendAll log mapRoot items).Keeps Addressed := by
  induction items generalizing log mapRoot with
  | nil => exact Write.keeps_pure _
  | cons item rest ih =>
    rw [appendAll]
    refine (Write.keeps_lift _).bind fun data => ?_
    refine (append_keeps log data).bind fun grown => ?_
    exact (SparseMap.update_keeps (fun entry _ h => h.write entry) _ _ _).bind fun next => ih grown next

theorem storeHead_keeps (head : TreeHead) : (storeHead head).Keeps Addressed :=
  Write.keeps_put fun _ h => h.set_outside headAddress_outside _

/-- **A batch** leaves every entry of the map under its hash. -/
theorem record_keeps (signer : Signer) (items : List Record) :
    (record signer items).Keeps Addressed := by
  refine (Write.keeps_read _).bind fun head => ?_
  refine (Write.keeps_read _).bind fun _ => ?_
  refine (appendAll_keeps _ _ _).bind fun grown => ?_
  refine (Write.keeps_read _).bind fun logRoot => ?_
  refine (Write.keeps_lift _).bind fun next => ?_
  exact (storeHead_keeps next).bind fun _ => Write.keeps_pure _

section Operations

variable {store : Store} (h : Addressed store.contents.snapshot)

include h

theorem resume_addressed (name : String) (signer : Signer) (fault : Option Fault) :
    Addressed (resume name signer store fault).2.contents.snapshot := by
  unfold resume
  cases store.view storedHead with
  | ok head =>
    by_cases hverify : head.verify signer = true
    · simp only [if_pos hverify]
      exact h
    · simp only [if_neg hverify]
      exact h
  | error e =>
    by_cases hfresh : e.isNotFound = true
    · simp only [if_pos hfresh]
      cases TreeHead.signed signer 0 emptyRoot SparseMap.emptyRoot with
      | error e => exact h
      | ok genesis => exact Store.update_keeps (storeHead_keeps genesis) h
    · simp only [if_neg hfresh]
      exact h

theorem commit_addressed (signer : Signer) (items : List Record) (fault : Option Fault) :
    Addressed (commit signer store items fault).2.contents.snapshot := by
  unfold commit
  cases checkBatch signer items with
  | error e => exact h
  | ok _ => exact Store.update_keeps (record_keeps signer items) h

theorem submit_addressed (ledger : Ledger) (items : List Record) (fault : Option Fault) :
    Addressed (ledger.submit store items fault).2.2.contents.snapshot := by
  have hafter := commit_addressed h ledger.signer items fault
  unfold submit
  rcases hcommit : commit ledger.signer store items fault with ⟨outcome, after⟩
  rw [hcommit] at hafter
  cases outcome with
  | ok head => exact hafter
  | error e => exact hafter

end Operations

end Ledger

/-! ## Sessions -/

namespace Session

variable {session : Session} {pairs : List Record}

/-- **Every call** leaves every entry of the map under its hash. -/
theorem call_addressed (h : Addressed session.store.contents.snapshot)
    (fits : session.store.contents.Fits) (call : Call)
    (kept : call = .takeOver → session.store.Kept) :
    Addressed (session.call call).2.store.contents.snapshot := by
  cases call with
  | ask question => exact h
  | submit log items fault =>
    simp only [Session.call]
    cases session.logs[log]? with
    | none => exact h
    | some ledger => exact Ledger.submit_addressed h ledger items fault
  | resume name signer fault =>
    have hafter := Ledger.resume_addressed h name signer fault
    rcases hresume : Ledger.resume name signer session.store fault with ⟨outcome, after⟩
    rw [hresume] at hafter
    simp only [Session.call, hresume]
    cases outcome with
    | ok ledger => exact hafter
    | error e => exact hafter
  | takeOver =>
    simp only [Session.call, Store.reread_eq (kept rfl) fits]
    exact h
  | disturb target scratch =>
    simp only [Session.call, Store.contents_withFile]
    exact h

/-- **In every session** every entry of the map stands under its hash. -/
theorem addressed_of_reached (h : Reached session pairs) :
    Addressed session.store.contents.snapshot := by
  suffices both : session.store.contents.Fits ∧ Addressed session.store.contents.snapshot from both.2
  induction h with
  | fresh empty =>
    refine ⟨empty ▸ Contents.fits_empty, SparseMap.addressed_of_none fun address _ => ?_⟩
    rw [Contents.snapshot, empty]
    exact Std.ExtTreeMap.getElem?_empty
  | called before call kept fits ih => exact ⟨fits, call_addressed ih.2 ih.1 call kept⟩

end Session

/-! ## Answers -/

namespace Ledger

section Answers

variable {store : Store} {key : Bytes} {root : Digest}

theorem lookup_of_mapValue {value : Option Bytes} {siblings : List Digest}
    (h : mapValue store key root = .ok (value, siblings)) :
    SparseMap.get store.contents.snapshot root key = .ok value ∧
      SparseMap.prove store.contents.snapshot root key = .ok siblings := by
  simp only [mapValue, Store.view] at h
  cases hget : SparseMap.get store.contents.snapshot root key with
  | error e =>
    rw [hget] at h
    cases h
  | ok found =>
    rw [hget] at h
    simp only [bind, Except.bind] at h
    cases hprove : SparseMap.prove store.contents.snapshot root key with
    | error e =>
      rw [hprove] at h
      cases h
    | ok passed =>
      rw [hprove] at h
      obtain ⟨rfl, rfl⟩ := Prod.mk.inj (Except.ok.inj h)
      exact ⟨rfl, rfl⟩

theorem mapValue_ne_invalidProof : mapValue store key root ≠ .error .invalidProof :=
  SparseMap.bind_ne_error (SparseMap.get_ne_invalidProof _ root key) fun _ =>
    SparseMap.bind_ne_error (SparseMap.prove_ne_invalidProof _ root key) fun _ heq => by cases heq

theorem decode_ne_invalidProof (bytes : Bytes) : MapEntry.decode bytes ≠ .error .invalidProof := by
  unfold MapEntry.decode Binary.decode
  cases MapEntry.reader bytes with
  | none => exact fun heq => by cases heq
  | some read => exact fun heq => by cases heq

variable (h : Addressed store.contents.snapshot)

include h

theorem verify_of_mapValue {value : Option Bytes} {siblings : List Digest}
    (hfound : mapValue store key root = .ok (value, siblings)) :
    SparseMap.verify siblings root key value = true := by
  obtain ⟨hget, hprove⟩ := lookup_of_mapValue hfound
  exact h.verify_of_lookup hget hprove

/-- **No query fails on its own proof**, whatever head the log shows. -/
theorem query_ne_invalidProof (ledger : Ledger) (key : Bytes) :
    ledger.query store key ≠ .error .invalidProof := by
  cases hfound : mapValue store key ledger.head.mapRoot with
  | error e =>
    have hquery : ledger.query store key = .error e := by
      rw [query, hfound]
      rfl
    rw [hquery]
    rintro ⟨⟩
    exact mapValue_ne_invalidProof hfound
  | ok found =>
    obtain ⟨value, siblings⟩ := found
    rw [query_of_verify hfound (verify_of_mapValue h hfound)]
    cases value with
    | none => exact fun heq => by cases heq
    | some bytes =>
      rw [Option.mapM_some]
      exact SparseMap.bind_ne_error (decode_ne_invalidProof bytes) fun _ heq => by cases heq

end Answers

end Ledger

/-- **No answer without its proof.** Wherever keys have been set on a store of maps, on top of whatever
roots, a value and a proof that are read for a key under one root belong together, be the root that of a
map or any 32 bytes. In every session the same holds of what a log answers for a key under a root, and
no query of a log fails because of its proof. -/
theorem lookups_supported :
    (∀ draft : Draft, SparseMap.Updated draft → ∀ (root : Digest) (key : Bytes)
      (value : Option Bytes) (siblings : List Digest),
      SparseMap.get draft.get? root key = .ok value →
      SparseMap.prove draft.get? root key = .ok siblings →
      SparseMap.verify siblings root key value = true) ∧
    ∀ (session : Session) (pairs : List Record), Session.Reached session pairs →
      (∀ (key : Bytes) (root : Digest) (value : Option Bytes) (siblings : List Digest),
        Ledger.mapValue session.store key root = .ok (value, siblings) →
        SparseMap.verify siblings root key value = true) ∧
      ∀ (ledger : Ledger) (key : Bytes), ledger.query session.store key ≠ .error .invalidProof := by
  refine ⟨fun draft updated root key value siblings hget hprove => ?_, fun session pairs reached => ?_⟩
  · exact updated.addressed.verify_of_lookup hget hprove
  · have addressed := Session.addressed_of_reached reached
    exact ⟨fun key root value siblings => Ledger.verify_of_mapValue addressed,
      Ledger.query_ne_invalidProof addressed⟩

/-- On a store of maps and in a log a key is set and looked up under the root that was returned. -/
theorem lookups_supported_set_key :
    (∃ (draft : Draft) (root : Digest), SparseMap.Updated draft ∧
      ((∃ siblings, SparseMap.get draft.get? root [1] = .ok (some [2]) ∧
          SparseMap.prove draft.get? root [1] = .ok siblings ∧
          SparseMap.verify siblings root [1] (some [2]) = true) ∨
        CollisionBetween (versionInputs [∅, (∅ : KeyMap).insert [1] [2]])
          (versionInputs [∅, (∅ : KeyMap).insert [1] [2]]))) ∧
    ∃ (session : Session) (ledger : Ledger), Session.Reached session [⟨[1], [5]⟩] ∧
      ledger ∈ session.logs ∧
      ((∃ siblings, Ledger.mapValue session.store [1] ledger.head.mapRoot =
            .ok (some (MapEntry.mk [5] 0).encode, siblings) ∧
          SparseMap.verify siblings ledger.head.mapRoot [1] (some (MapEntry.mk [5] 0).encode) =
            true) ∨
        CollisionBetween
          (insert [1] (versionInputs (Ledger.versionsOf [⟨[1], [5]⟩])))
          (insert [1] (versionInputs (Ledger.versionsOf [⟨[1], [5]⟩])))) ∧
      ledger.query session.store [1] ≠ .error .invalidProof := by
  constructor
  · obtain ⟨root, draft, hset⟩ :=
      SparseMap.exists_update_empty ⟨Store.inMemory.contents, ∅⟩ [1] [2]
    have hbegun : SparseMap.Updated ⟨Store.inMemory.contents, ∅⟩ :=
      .begun fun _ _ => Std.ExtTreeMap.getElem?_empty
    have updated := hbegun.set hset
    have hreach := (SparseMap.Reaches.begun Store.inMemory).set 0 rfl rfl hset
    refine ⟨draft, root, updated, (injOn_or_collision _).imp_left fun hinj => ?_⟩
    obtain ⟨map, hmap⟩ : ∃ map, map = (∅ : KeyMap).insert [1] [2] := ⟨_, rfl⟩
    have hmem : map ∈ [∅, (∅ : KeyMap).insert [1] [2]] :=
      List.mem_cons_of_mem _ (List.mem_singleton.mpr hmap)
    have hkey : map[([1] : Bytes)]? = some [2] := by
      rw [hmap]
      exact Std.ExtTreeMap.getElem?_insert_self
    have holds := SparseMap.holds_of_reaches hinj hreach (Set.Subset.refl _)
    have hroot : root = SparseMap.keyedRoot map :=
      holds.root_eq (show [SparseMap.emptyRoot, root][1]? = some root from rfl)
        (congrArg some hmap.symm)
    have hsub := SparseMap.keyedInputs_subset_versionInputs hmem
    have apart := SparseMap.apart_of_injOn hinj hsub (hsub (Or.inl (SparseMap.mem_of_getElem? hkey)))
    have hget := holds.get_eq hinj hmem apart fun value hvalue => by
      obtain rfl := Option.some.inj (hkey.symm.trans hvalue)
      decide +kernel
    obtain ⟨siblings, hprove, -, -⟩ := holds.prove_eq hinj hmem apart
    rw [← hroot] at hget hprove
    rw [hkey] at hget
    exact ⟨siblings, hget, hprove, lookups_supported.1 draft updated _ _ _ _ hget hprove⟩
  · obtain ⟨g⟩ := Ledger.exists_grown_one_two "log" (show Store.inMemory.contents = ∅ from rfl)
      Store.clear_inMemory
    have reached := Session.reached_one g rfl
    obtain ⟨hverify, hquery⟩ := lookups_supported.2 _ _ reached
    refine ⟨_, ⟨"log", Signer.mirror, g.one⟩, reached, List.mem_singleton_self _, ?_, hquery _ [1]⟩
    obtain ⟨roots, sound⟩ := SharedLog.sound_of_reaches (g.reaches_one rfl)
    have hentry : (Ledger.mapOf (([⟨[1], [5]⟩] : List Record).take
        g.one.treeSize.toNat))[([1] : Bytes)]? = some (MapEntry.mk [5] 0).encode := by
      rw [g.treeSize_one]
      rfl
    refine (injOn_or_collision _).imp_left fun hinj => ?_
    obtain ⟨-, siblings, -, -, hfound⟩ := sound.mapValue_eq (List.mem_pair.mpr (Or.inr rfl)) hinj (by
      rw [hentry]
      rintro ⟨_, ⟨⟩, hzero⟩
      exact Ledger.nonzero_one_two ([1], _) List.mem_cons_self hzero)
    rw [hentry] at hfound
    exact ⟨siblings, hfound, hverify _ _ _ _ hfound⟩

end TransparencyLog
