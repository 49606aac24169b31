import TransparencyLog.Proofs.Store.Write
import TransparencyLog.Store.Basic

/-!
# Commits

Whether a commit succeeds depends on what stands where its two files go and on the faults of writing, and
on nothing else. A commit that fails leaves the contents alone. If the scratch file has a path of its own,
it leaves the file alone too, and at most a scratch file behind, which no later operation can tell.

* `StoredFile.Clear`, `Store.Clear`: no directory is in the way of a commit;
* `StoredFile.Alike`, `Store.Alike`: the same, up to what the scratch file holds;
* **`StoredFile.replace_agree`**: files that are alike are replaced alike;
* `Store.Apart`, `Store.Spared`: the scratch file has a path of its own, and a fault does not matter;
* `Store.update_of_clear`, `Store.update_of_not_clear`: a transaction that has written something;
* **`Store.update_alike`**: a transaction that fails leaves a store like the one before;
* **`Store.update_fault`**, `Store.update_of_not_spared`: what a fault does to a transaction;
* `Store.update_keeps`: what a transaction keeps, the store keeps;
* **`Store.update_agree`**: stores that are alike answer alike, and stay alike.
-/

namespace TransparencyLog

/-! ## Files -/

namespace StoredFile

/-- No directory stands where the file or its scratch file goes. -/
def Clear (file : StoredFile) : Prop := file.target ≠ .directory ∧ file.scratch ≠ .directory

/-- The two have the same file, and their scratch files go to the same path and can be written or not
alike. -/
structure Alike (file file' : StoredFile) : Prop where
  target : file'.target = file.target
  scratch : file'.scratch = .directory ↔ file.scratch = .directory
  shared : file'.shared = file.shared
  same : file.shared = true → file'.scratch = file.scratch

variable {file file' file'' : StoredFile} {bytes : Bytes}

theorem Alike.refl (file : StoredFile) : file.Alike file := ⟨rfl, Iff.rfl, rfl, fun _ => rfl⟩

theorem Alike.symm (h : file.Alike file') : file'.Alike file :=
  ⟨h.target.symm, h.scratch.symm, h.shared.symm, fun shared =>
    (h.same (h.shared.symm.trans shared)).symm⟩

theorem Alike.trans (h : file.Alike file') (h' : file'.Alike file'') : file.Alike file'' :=
  ⟨h'.target.trans h.target, h'.scratch.trans h.scratch, h'.shared.trans h.shared, fun shared =>
    (h'.same (h.shared.trans shared)).trans (h.same shared)⟩

theorem Alike.clear_iff (h : file.Alike file') : file'.Clear ↔ file.Clear := by
  rw [Clear, h.target, Clear, ne_eq, ne_eq, h.scratch]

theorem Alike.load_eq (h : file.Alike file') : file'.load = file.load := by
  rw [load, h.target, load]

/-! ### The two steps -/

theorem putScratch_of_apart (apart : file.shared = false) (slot : Slot) :
    file.putScratch slot = { file with scratch := slot } := by
  rw [putScratch, apart]
  rfl

@[simp] theorem shared_putScratch (file : StoredFile) (slot : Slot) :
    (file.putScratch slot).shared = file.shared := by
  unfold putScratch
  split <;> rfl

@[simp] theorem scratch_putScratch (file : StoredFile) (slot : Slot) :
    (file.putScratch slot).scratch = slot := by
  unfold putScratch
  split <;> rfl

theorem target_putScratch (file : StoredFile) (slot : Slot) :
    (file.putScratch slot).target = if file.shared then slot else file.target := by
  unfold putScratch
  split <;> rfl

@[simp] theorem installed_putScratch (file : StoredFile) (slot : Slot) (bytes : Bytes) :
    (file.putScratch slot).installed bytes = file.installed bytes := by
  unfold putScratch
  split <;> rfl

theorem Alike.putScratch (h : file.Alike file') (slot : Slot) :
    (file.putScratch slot).Alike (file'.putScratch slot) := by
  refine ⟨?_, ?_, ?_, fun _ => ?_⟩
  · rw [target_putScratch, target_putScratch, h.shared, h.target]
  · rw [scratch_putScratch, scratch_putScratch]
  · rw [shared_putScratch, shared_putScratch, h.shared]
  · rw [scratch_putScratch, scratch_putScratch]

theorem Alike.installed (h : file.Alike file') (bytes : Bytes) :
    (file.installed bytes).Alike (file'.installed bytes) := by
  have hscratch : (file'.installed bytes).scratch = (file.installed bytes).scratch := by
    simp only [StoredFile.installed, h.shared]
  exact ⟨rfl, by rw [hscratch], h.shared, fun _ => hscratch⟩

/-- A scratch file with a path of its own can be written over and over. -/
theorem alike_putScratch (apart : file.shared = false) (writable : file.scratch ≠ .directory)
    (bytes : Bytes) : file.Alike (file.putScratch (.file bytes)) := by
  rw [putScratch_of_apart apart]
  refine ⟨rfl, by simp [writable], rfl, fun shared => ?_⟩
  cases apart.symm.trans shared

/-- The scratch file can be written. -/
def Writable (file : StoredFile) : Prop :=
  file.scratch ≠ .directory ∧ (file.shared = true → file.target ≠ .directory)

theorem Clear.writable (h : file.Clear) : file.Writable := ⟨h.2, fun _ => h.1⟩

theorem Alike.writable_iff (h : file.Alike file') : file'.Writable ↔ file.Writable := by
  rw [Writable, h.shared, h.target, ne_eq, h.scratch, Writable]

theorem writeScratch_of_writable (h : file.Writable) (bytes : Bytes) :
    file.writeScratch? bytes = some (file.putScratch (.file bytes)) := by
  refine if_neg ?_
  rintro (hscratch | ⟨hshared, htarget⟩)
  · exact h.1 hscratch
  · exact h.2 hshared htarget

theorem writeScratch_of_not_writable (h : ¬ file.Writable) (bytes : Bytes) :
    file.writeScratch? bytes = none :=
  if_pos (Classical.not_not.mp fun hnot => h (by rwa [not_or, not_and] at hnot))

theorem of_writeScratch (h : file.writeScratch? bytes = some file') :
    file' = file.putScratch (.file bytes) := by
  rw [writeScratch?] at h
  split at h <;> cases h
  rfl

theorem of_rename (h : file.rename? = some file') (hscratch : file.scratch = .file bytes) :
    file' = file.installed bytes := by
  rw [rename?, hscratch] at h
  split at h <;> cases h
  rfl

/-- What has been written can be renamed unless the file is a directory, which a file that has just been
written is not. -/
theorem rename_putScratch (file : StoredFile) (bytes : Bytes) :
    (file.putScratch (.file bytes)).rename? =
      if file.shared = false ∧ file.target = .directory then none
      else some (file.installed bytes) := by
  simp only [rename?, target_putScratch, scratch_putScratch, installed_putScratch]
  cases file.shared <;> simp

/-! ### Replacing -/

theorem replace_of_not_writable (h : ¬ file.Writable) (bytes : Bytes) (fault : Option Fault) :
    file.replace bytes fault = (.error (.storage .unwritable), file) := by
  rw [replace, writeScratch_of_not_writable h]

theorem replace_of_clear (h : file.Clear) (bytes : Bytes) :
    file.replace bytes = (.ok (), file.installed bytes) := by
  have hrename : (file.putScratch (.file bytes)).rename? = some (file.installed bytes) := by
    rw [rename_putScratch]
    exact if_neg fun hobstructed => h.1 hobstructed.2
  simp only [replace, writeScratch_of_writable h.writable, hrename]

theorem replace_of_not_clear (h : ¬ file.Clear) (bytes : Bytes) :
    ∃ file', file.replace bytes = (.error (.storage .unwritable), file') ∧ file.Alike file' := by
  by_cases hwritable : file.Writable
  · -- The scratch file is written and stays, as it cannot be renamed.
    have htarget : file.target = .directory :=
      Classical.not_not.mp fun hne => h ⟨hne, hwritable.1⟩
    have apart : file.shared = false :=
      Bool.eq_false_iff.mpr fun hshared => hwritable.2 hshared htarget
    have hrename : (file.putScratch (.file bytes)).rename? = none := by
      rw [rename_putScratch]
      exact if_pos ⟨apart, htarget⟩
    refine ⟨file.putScratch (.file bytes), ?_, alike_putScratch apart hwritable.1 bytes⟩
    simp only [replace, writeScratch_of_writable hwritable, hrename]
  · exact ⟨file, replace_of_not_writable hwritable bytes none, .refl file⟩

/-- Whatever becomes of it, the file stays at the same paths. -/
theorem shared_replace (file : StoredFile) (bytes : Bytes) (fault : Option Fault) :
    (file.replace bytes fault).2.shared = file.shared := by
  unfold replace
  cases hwrite : file.writeScratch? bytes with
  | none => rfl
  | some written =>
    obtain rfl := of_writeScratch hwrite
    cases fault with
    | some fault => cases fault <;> exact shared_putScratch _ _
    | none =>
      simp only
      cases hrename : (file.putScratch (.file bytes)).rename? with
      | none => exact shared_putScratch _ _
      | some renamed =>
        obtain rfl := of_rename hrename (file.scratch_putScratch _)
        exact shared_putScratch _ _

/-- With a fault nothing is replaced. If the scratch file has a path of its own, the file stays. -/
theorem replace_of_fault (file : StoredFile) (bytes : Bytes) (fault : Fault) :
    ∃ file', file.replace bytes (some fault) = (.error (.storage .unwritable), file') ∧
      (file.shared = false → file.Alike file') := by
  by_cases hwritable : file.Writable
  · cases fault with
    | torn count =>
      refine ⟨file.putScratch (.file (bytes.take count)), ?_,
        fun apart => alike_putScratch apart hwritable.1 _⟩
      simp only [replace, writeScratch_of_writable hwritable]
    | unrenamed =>
      refine ⟨file.putScratch (.file bytes), ?_, fun apart => alike_putScratch apart hwritable.1 _⟩
      simp only [replace, writeScratch_of_writable hwritable]
  · exact ⟨file, replace_of_not_writable hwritable bytes _, fun _ => .refl file⟩

/-- **Files that are alike** are replaced alike. -/
theorem replace_agree (h : file.Alike file') (bytes : Bytes) (fault : Option Fault) :
    (file'.replace bytes fault).1 = (file.replace bytes fault).1 ∧
      (file.replace bytes fault).2.Alike (file'.replace bytes fault).2 := by
  by_cases hwritable : file.Writable
  case neg =>
    rw [replace_of_not_writable hwritable, replace_of_not_writable (mt h.writable_iff.mp hwritable)]
    exact ⟨rfl, h⟩
  have hwritable' := h.writable_iff.mpr hwritable
  simp only [replace, writeScratch_of_writable hwritable, writeScratch_of_writable hwritable',
    rename_putScratch, h.shared, h.target]
  cases fault with
  | some fault => cases fault <;> exact ⟨rfl, h.putScratch _⟩
  | none =>
    by_cases hobstructed : file.shared = false ∧ file.target = .directory
    · simp only [if_pos hobstructed]
      exact ⟨trivial, h.putScratch _⟩
    · simp only [if_neg hobstructed]
      exact ⟨trivial, h.installed _⟩

end StoredFile

/-! ## Stores -/

/-- Media of one kind, with files that are alike. -/
inductive Medium.Alike : Medium → Medium → Prop
  | memory : Alike .memory .memory
  | file {file file' : StoredFile} (h : file.Alike file') : Alike (.file file) (.file file')

theorem Medium.Alike.symm {medium medium' : Medium} (h : medium.Alike medium') :
    medium'.Alike medium := by
  cases h with
  | memory => exact .memory
  | file h => exact .file h.symm

theorem Medium.Alike.trans {medium medium' medium'' : Medium} (h : medium.Alike medium')
    (h' : medium'.Alike medium'') : medium.Alike medium'' := by
  cases h with
  | memory => exact h'
  | file h =>
    cases h' with
    | file h' => exact .file (h.trans h')

namespace Store

/-- Nothing is in the way of a commit, which succeeds then and only then (`commit_eq_ok_iff`). -/
def Clear (store : Store) : Prop := ∀ file, store.medium = .file file → file.Clear

/-- The two have the same contents and the same file. -/
structure Alike (store store' : Store) : Prop where
  contents : store'.contents = store.contents
  medium : store.medium.Alike store'.medium

variable {store store' store'' : Store}

theorem Alike.refl (store : Store) : store.Alike store := by
  refine ⟨rfl, ?_⟩
  cases store.medium with
  | memory => exact .memory
  | file file => exact .file (.refl file)

theorem Alike.symm (h : store.Alike store') : store'.Alike store :=
  ⟨h.contents.symm, h.medium.symm⟩

theorem Alike.trans (h : store.Alike store') (h' : store'.Alike store'') : store.Alike store'' :=
  ⟨h'.contents.trans h.contents, h.medium.trans h'.medium⟩

theorem Alike.exists_file (h : store.Alike store') {file' : StoredFile}
    (hmedium' : store'.medium = .file file') :
    ∃ file, store.medium = .file file ∧ file.Alike file' := by
  have hmedium := h.medium
  rw [hmedium'] at hmedium
  cases hfile : store.medium with
  | memory =>
    rw [hfile] at hmedium
    cases hmedium
  | file file =>
    rw [hfile] at hmedium
    cases hmedium with
    | file same => exact ⟨file, rfl, same⟩

theorem Alike.clear (h : store.Alike store') (clear : store.Clear) : store'.Clear := by
  intro file' hmedium'
  obtain ⟨file, hfile, same⟩ := h.exists_file hmedium'
  exact same.clear_iff.mpr (clear file hfile)

/-- The scratch file of the store, if it is kept in a file, has a path of its own. -/
def Apart (store : Store) : Prop := ∀ file, store.medium = .file file → file.shared = false

/-- A fault does not matter to the store: there is none, or no file. -/
def Spared (store : Store) (fault : Option Fault) : Prop :=
  ∀ file, store.medium = .file file → fault = none

/-- An operation on two stores has given the same answer and left stores that are alike. -/
def Agree {α : Type} (first second : α × Store) : Prop :=
  second.1 = first.1 ∧ first.2.Alike second.2

/-! ## Committing -/

/-- The medium after contents have been written. -/
def written (medium : Medium) (next : Contents) : Medium :=
  match medium with
  | .memory => .memory
  | .file file => .file (file.installed next.encode)

theorem written_written (medium : Medium) (next last : Contents) :
    written (written medium next) last = written medium last := by
  cases medium <;> rfl

theorem clear_written (medium : Medium) (next : Contents) :
    Clear ⟨next, written medium next⟩ := by
  cases medium with
  | memory =>
    rintro _ ⟨⟩
  | file file =>
    rintro _ ⟨⟩
    refine ⟨Slot.noConfusion, ?_⟩
    unfold StoredFile.installed
    cases file.shared <;> exact Slot.noConfusion

theorem commit_of_clear (h : store.Clear) (next : Contents) :
    store.commit next = (.ok (), ⟨next, written store.medium next⟩) := by
  unfold commit
  cases hmedium : store.medium with
  | memory => rfl
  | file file =>
    simp only [StoredFile.replace_of_clear (h file hmedium)]
    rfl

theorem commit_of_not_clear (h : ¬ store.Clear) (next : Contents) :
    ∃ store', store.commit next = (.error (.storage .unwritable), store') ∧
      store.Alike store' := by
  obtain ⟨contents, medium⟩ := store
  cases medium with
  | memory => exact absurd (fun _ hmedium => by cases hmedium) h
  | file file =>
    have hfile : ¬ file.Clear := by
      intro hclear
      refine h fun file' hmedium => ?_
      cases hmedium
      exact hclear
    obtain ⟨file', hreplace, halike⟩ := StoredFile.replace_of_not_clear hfile next.encode
    refine ⟨⟨contents, .file file'⟩, ?_, rfl, .file halike⟩
    simp only [commit, hreplace]

theorem commit_eq_ok_iff (store : Store) (next : Contents) :
    (store.commit next).1 = .ok () ↔ store.Clear := by
  by_cases hclear : store.Clear
  · rw [commit_of_clear hclear]
    exact ⟨fun _ => hclear, fun _ => rfl⟩
  · obtain ⟨store', hcommit, _⟩ := commit_of_not_clear hclear next
    rw [hcommit]
    refine ⟨fun heq => ?_, fun h => absurd h hclear⟩
    cases heq

theorem commit_of_spared {fault : Option Fault} (h : store.Spared fault) (next : Contents) :
    store.commit next fault = store.commit next := by
  unfold commit
  cases hmedium : store.medium with
  | memory => rfl
  | file file => rw [h file hmedium]

theorem commit_of_not_spared {fault : Option Fault} (h : ¬ store.Spared fault) (next : Contents) :
    ∃ store', store.commit next fault = (.error (.storage .unwritable), store') ∧
      store'.contents = store.contents ∧ (store.Apart → store.Alike store') := by
  obtain ⟨contents, medium⟩ := store
  cases medium with
  | memory => exact absurd (fun _ hmedium => by cases hmedium) h
  | file file =>
    cases fault with
    | none => exact absurd (fun _ _ => rfl) h
    | some fault =>
      obtain ⟨file', hreplace, halike⟩ := file.replace_of_fault next.encode fault
      refine ⟨⟨contents, .file file'⟩, ?_, rfl, fun apart => ⟨rfl, .file (halike (apart file rfl))⟩⟩
      simp only [commit, hreplace]

theorem Apart.commit (h : store.Apart) (next : Contents) (fault : Option Fault) :
    (store.commit next fault).2.Apart := by
  unfold Store.commit
  cases hmedium : store.medium with
  | memory =>
    rintro _ ⟨⟩
  | file file =>
    have hshared := (file.shared_replace next.encode fault).trans (h file hmedium)
    simp only
    rcases hreplace : file.replace next.encode fault with ⟨outcome, after⟩
    rw [hreplace] at hshared
    cases outcome with
    | ok _ =>
      rintro _ ⟨⟩
      exact hshared
    | error e =>
      rintro _ ⟨⟩
      exact hshared

theorem commit_agree (h : store.Alike store') (next : Contents) (fault : Option Fault) :
    Agree (store.commit next fault) (store'.commit next fault) := by
  obtain ⟨contents, medium⟩ := store
  obtain ⟨contents', medium'⟩ := store'
  obtain ⟨hcontents, hmedium⟩ := h
  cases hmedium with
  | memory => exact ⟨rfl, rfl, .memory⟩
  | @file file file' same =>
    obtain ⟨houtcome, hafter⟩ := StoredFile.replace_agree same next.encode fault
    unfold commit
    rcases hreplace : file.replace next.encode fault with ⟨outcome, after⟩
    rcases hreplace' : file'.replace next.encode fault with ⟨outcome', after'⟩
    rw [hreplace, hreplace'] at houtcome hafter
    obtain rfl : outcome' = outcome := houtcome
    simp only [hreplace, hreplace']
    cases outcome' with
    | ok _ => exact ⟨rfl, rfl, .file hafter⟩
    | error e => exact ⟨rfl, hcontents, .file hafter⟩

/-! ## Transactions -/

section Update

variable {α : Type} {body : Write α} {a : α} {error : LogError} {draft : Draft}
  {fault : Option Fault}

theorem update_of_error (h : body ⟨store.contents, ∅⟩ = .error error) :
    store.update body fault = (.error error, store) := by
  unfold update
  rw [h]

theorem update_of_empty (h : body ⟨store.contents, ∅⟩ = .ok (a, draft))
    (hempty : draft.pending.isEmpty = true) : store.update body fault = (.ok a, store) := by
  unfold update
  rw [h]
  simp only [hempty, if_true]

/-- A transaction that has written something reaches the commit. -/
theorem update_of_commit (h : body ⟨store.contents, ∅⟩ = .ok (a, draft))
    (hwritten : draft.pending.isEmpty = false) :
    store.update body fault =
      ((store.commit draft.merged fault).1.map fun _ => a, (store.commit draft.merged fault).2) := by
  unfold update
  rw [h]
  simp only [hwritten]
  rfl

theorem update_of_clear (clear : store.Clear) (h : body ⟨store.contents, ∅⟩ = .ok (a, draft))
    (hwritten : draft.pending.isEmpty = false) :
    store.update body = (.ok a, ⟨draft.merged, written store.medium draft.merged⟩) := by
  rw [update_of_commit h hwritten, commit_of_clear clear]
  rfl

theorem update_of_not_clear (blocked : ¬ store.Clear)
    (h : body ⟨store.contents, ∅⟩ = .ok (a, draft)) (hwritten : draft.pending.isEmpty = false) :
    ∃ store', store.update body = (.error (.storage .unwritable), store') ∧
      store.Alike store' := by
  obtain ⟨store', hcommit, halike⟩ := commit_of_not_clear blocked draft.merged
  rw [update_of_commit h hwritten, hcommit]
  exact ⟨store', rfl, halike⟩

/-- A transaction that has written something and succeeds gives its result and leaves what its draft
reads. -/
theorem of_update_ok {b : α} (hrun : body ⟨store.contents, ∅⟩ = .ok (a, draft))
    (hwritten : draft.pending.isEmpty = false) (h : store.update body = (.ok b, store')) :
    b = a ∧ store' = ⟨draft.merged, written store.medium draft.merged⟩ := by
  by_cases hclear : store.Clear
  · rw [update_of_clear hclear hrun hwritten] at h
    cases h
    exact ⟨rfl, rfl⟩
  · obtain ⟨after, herror, -⟩ := update_of_not_clear hclear hrun hwritten
    rw [herror] at h
    cases h

/-- **A transaction that fails** leaves the contents and the file as they were. -/
theorem update_alike (h : store.update body = (.error error, store')) : store.Alike store' := by
  cases hrun : body ⟨store.contents, ∅⟩ with
  | error e =>
    rw [update_of_error hrun] at h
    cases h
    exact .refl store
  | ok result =>
    obtain ⟨a, draft⟩ := result
    cases hempty : draft.pending.isEmpty with
    | true =>
      rw [update_of_empty hrun hempty] at h
      cases h
    | false =>
      by_cases hclear : store.Clear
      · rw [update_of_clear hclear hrun hempty] at h
        cases h
      · obtain ⟨after, herror, halike⟩ := update_of_not_clear hclear hrun hempty
        rw [herror] at h
        cases h
        exact halike

/-- A transaction leaves the scratch file a path of its own. -/
theorem Apart.alike (h : store.Apart) (same : store.Alike store') : store'.Apart := by
  intro file' hfile'
  have hmedium := same.medium
  rw [hfile'] at hmedium
  generalize hbefore : store.medium = medium at hmedium
  cases hmedium with
  | file halike => exact halike.shared.trans (h _ hbefore)

theorem Apart.update (h : store.Apart) (body : Write α) (fault : Option Fault) :
    (store.update body fault).2.Apart := by
  cases hrun : body ⟨store.contents, ∅⟩ with
  | error e =>
    rw [update_of_error hrun]
    exact h
  | ok result =>
    cases hempty : result.2.pending.isEmpty with
    | true =>
      rw [update_of_empty hrun hempty]
      exact h
    | false =>
      rw [update_of_commit hrun hempty]
      exact h.commit _ fault

theorem update_of_spared (h : store.Spared fault) (body : Write α) :
    store.update body fault = store.update body := by
  unfold update
  simp only [commit_of_spared h]

/-- A transaction that has written something can only fail by its commit. -/
theorem error_of_update (hrun : body ⟨store.contents, ∅⟩ = .ok (a, draft))
    (hwritten : draft.pending.isEmpty = false) (h : (store.update body).1 = .error error) :
    error = .storage .unwritable := by
  by_cases hclear : store.Clear
  · rw [update_of_clear hclear hrun hwritten] at h
    cases h
  · obtain ⟨store', hupdate, -⟩ := update_of_not_clear hclear hrun hwritten
    rw [hupdate] at h
    cases h
    rfl

/-- A transaction that has written something does not get through a fault. -/
theorem update_of_not_spared (h : ¬ store.Spared fault)
    (hrun : body ⟨store.contents, ∅⟩ = .ok (a, draft)) (hwritten : draft.pending.isEmpty = false) :
    ∃ store', store.update body fault = (.error (.storage .unwritable), store') ∧
      store'.contents = store.contents ∧ (store.Apart → store.Alike store') := by
  obtain ⟨store', hcommit, hsame, halike⟩ := commit_of_not_spared h draft.merged
  rw [update_of_commit hrun hwritten, hcommit]
  exact ⟨store', rfl, hsame, halike⟩

/-- **A fault** changes nothing about a transaction, or it makes the commit fail. That leaves the contents
as they were, and the file too if its scratch file has a path of its own. -/
theorem update_fault (store : Store) (body : Write α) (fault : Option Fault) :
    store.update body fault = store.update body ∨
      (∀ error, (store.update body).1 = .error error → error = .storage .unwritable) ∧
        ∃ store', store.update body fault = (.error (.storage .unwritable), store') ∧
          store'.contents = store.contents ∧ (store.Apart → store.Alike store') := by
  by_cases hspared : store.Spared fault
  · exact Or.inl (update_of_spared hspared body)
  cases hrun : body ⟨store.contents, ∅⟩ with
  | error e => exact Or.inl ((update_of_error hrun).trans (update_of_error hrun).symm)
  | ok result =>
    obtain ⟨a, draft⟩ := result
    cases hempty : draft.pending.isEmpty with
    | true => exact Or.inl ((update_of_empty hrun hempty).trans (update_of_empty hrun hempty).symm)
    | false =>
      exact Or.inr ⟨fun error => error_of_update hrun hempty, update_of_not_spared hspared hrun hempty⟩

/-- What a transaction keeps, the store keeps, whether the transaction takes effect or not. -/
theorem update_keeps {P : Snapshot → Prop} (keeps : body.Keeps P)
    (h : P store.contents.snapshot) : P (store.update body fault).2.contents.snapshot := by
  rcases update_fault store body fault with heq | ⟨-, store', heq, hsame, -⟩
  case inr =>
    rw [heq]
    show P store'.contents.snapshot
    rw [hsame]
    exact h
  rw [heq]
  cases hrun : body ⟨store.contents, ∅⟩ with
  | error e =>
    rw [update_of_error hrun]
    exact h
  | ok result =>
    obtain ⟨a, draft⟩ := result
    have hafter : P draft.get? := by
      refine keeps _ _ _ hrun ?_
      rw [Draft.get?_base]
      exact h
    cases hempty : draft.pending.isEmpty with
    | true =>
      rw [update_of_empty hrun hempty]
      exact h
    | false =>
      by_cases hclear : store.Clear
      · rw [update_of_clear hclear hrun hempty]
        have hmerged : draft.merged.snapshot = draft.get? := funext draft.getElem?_merged
        show P draft.merged.snapshot
        rw [hmerged]
        exact hafter
      · obtain ⟨store', hupdate, halike⟩ := update_of_not_clear hclear hrun hempty
        rw [hupdate]
        show P store'.contents.snapshot
        rw [halike.contents]
        exact h

/-- **Stores that are alike** run a transaction with one outcome. -/
theorem update_agree (h : store.Alike store') (body : Write α) (fault : Option Fault) :
    Agree (store.update body fault) (store'.update body fault) := by
  have hbase : body ⟨store'.contents, ∅⟩ = body ⟨store.contents, ∅⟩ := by rw [h.contents]
  cases hrun : body ⟨store.contents, ∅⟩ with
  | error e =>
    rw [update_of_error hrun, update_of_error (hbase.trans hrun)]
    exact ⟨rfl, h⟩
  | ok result =>
    obtain ⟨a, draft⟩ := result
    cases hempty : draft.pending.isEmpty with
    | true =>
      rw [update_of_empty hrun hempty, update_of_empty (hbase.trans hrun) hempty]
      exact ⟨rfl, h⟩
    | false =>
      obtain ⟨houtcome, hafter⟩ := commit_agree h draft.merged fault
      rw [update_of_commit hrun hempty, update_of_commit (hbase.trans hrun) hempty, houtcome]
      exact ⟨rfl, hafter⟩

end Update

end Store

end TransparencyLog
