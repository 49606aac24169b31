import TransparencyLog.Proofs.Binary
import TransparencyLog.Proofs.Store.Commit

/-!
# Stores and their files

The file of a store stands for what the store holds, through every commit, those included that something
was in the way of. So a store that is read again from its file is the same store.

* `Contents.Fits`: contents whose lengths can be written in 64 bits;
* **`Contents.decode_encode`**: contents that fit read back;
* `Store.Kept`: the file, if there is one, stands for the contents;
* `Store.update_cases`: a transaction takes effect as a whole or not at all;
* **`Store.reread_eq`**: a store read again from its file is the same.
-/

namespace TransparencyLog

/-! ## The bytes of a file -/

namespace Contents

/-- The number of entries and every length in them can be written in 64 bits. -/
structure Fits (contents : Contents) : Prop where
  size_lt : contents.size < UInt64.size
  entry_lt : ∀ (address : Address) (value : Bytes), contents[address]? = some value →
    (Bytes.ofText address.bucket).length < UInt64.size ∧ address.key.length < UInt64.size ∧
      value.length < UInt64.size

theorem fits_empty : (∅ : Contents).Fits where
  size_lt := by
    rw [Std.ExtTreeMap.size_empty]
    decide
  entry_lt address value hget := by
    rw [Std.ExtTreeMap.getElem?_empty] at hget
    cases hget

theorem readEntry_encodeEntry {entry : Address × Bytes}
    (hbucket : (Bytes.ofText entry.1.bucket).length < UInt64.size)
    (hkey : entry.1.key.length < UInt64.size) (hvalue : entry.2.length < UInt64.size)
    (rest : Bytes) : readEntry (encodeEntry entry ++ rest) = some (entry, rest) := by
  unfold readEntry
  rw [encodeEntry, List.append_assoc, List.append_assoc,
    Binary.Reader.bind_some (Binary.readText_text hbucket _),
    Binary.Reader.bind_some (Binary.readBlock_block hkey _),
    Binary.Reader.bind_some (Binary.readBlock_block hvalue _), Binary.Reader.pure_apply]

/-- Reading entries one after another puts them into the contents in order. -/
theorem readEntries_flatMap (entries : List (Address × Bytes)) (contents : Contents)
    (h : ∀ entry ∈ entries, (Bytes.ofText entry.1.bucket).length < UInt64.size ∧
      entry.1.key.length < UInt64.size ∧ entry.2.length < UInt64.size) :
    readEntries entries.length contents (entries.flatMap encodeEntry) =
      some (contents.insertMany entries, []) := by
  induction entries generalizing contents with
  | nil => rfl
  | cons entry entries ih =>
    obtain ⟨address, value⟩ := entry
    obtain ⟨hbucket, hkey, hvalue⟩ := h _ List.mem_cons_self
    rw [List.length_cons, readEntries, List.flatMap_cons,
      Binary.Reader.bind_some (readEntry_encodeEntry hbucket hkey hvalue _),
      Std.ExtTreeMap.insertMany_cons]
    exact ih _ fun entry hentry => h entry (List.mem_cons_of_mem _ hentry)

theorem insertMany_toList (contents : Contents) :
    (∅ : Contents).insertMany contents.toList = contents := by
  apply Std.ExtTreeMap.ext_getElem?
  intro address
  cases hget : contents[address]? with
  | none =>
    have habsent : (contents.toList.map Prod.fst).contains address = false := by
      rw [Bool.eq_false_iff, ne_eq, List.contains_iff_mem]
      intro hmem
      obtain ⟨⟨address', value⟩, hentry, rfl⟩ := List.mem_map.mp hmem
      rw [Std.ExtTreeMap.mem_toList_iff_getElem?_eq_some, hget] at hentry
      cases hentry
    rw [Std.ExtTreeMap.getElem?_insertMany_list_of_contains_eq_false habsent,
      Std.ExtTreeMap.getElem?_empty]
  | some value =>
    exact Std.ExtTreeMap.getElem?_insertMany_list_of_mem (Std.LawfulEqCmp.compare_eq_iff_eq.mpr rfl)
      Std.ExtTreeMap.distinct_keys_toList
      (Std.ExtTreeMap.mem_toList_iff_getElem?_eq_some.mpr hget)

/-- **Contents that fit read back from their file.** -/
theorem decode_encode {contents : Contents} (h : contents.Fits) :
    decode contents.encode = .ok contents := by
  have hsize : contents.toList.length < UInt64.size := by
    rw [Std.ExtTreeMap.length_toList]
    exact h.size_lt
  have hread : reader contents.encode = some (contents, []) := by
    unfold reader
    rw [encode, Binary.Reader.bind_some (Binary.readNumber_littleEndian hsize _),
      readEntries_flatMap, insertMany_toList]
    intro entry hentry
    exact h.entry_lt entry.1 entry.2 (Std.ExtTreeMap.mem_toList_iff_getElem?_eq_some.mp hentry)
  exact Binary.decode_of_some hread

end Contents

/-! ## Stores -/

namespace Store

/-- The file of the store, if it has one, stands for its contents. -/
def Kept (store : Store) : Prop :=
  ∀ file, store.medium = .file file →
    file.load = .ok store.contents ∨ file.target = .file store.contents.encode

/-- The store as another process finds it: read again from its file, if it has one. -/
def reread (store : Store) : Except LogError Store :=
  match store.medium with
  | .memory => .ok store
  | .file file => openFile file

/-- The store after something else has been put where its scratch file goes, if that is another path than
its own. -/
def withScratch (store : Store) (slot : Slot) : Store :=
  match store.medium with
  | .memory => store
  | .file file => if file.shared then store else { store with medium := .file (file.putScratch slot) }

theorem kept_inMemory : inMemory.Kept := by
  rintro file ⟨⟩

theorem clear_inMemory : inMemory.Clear := by
  rintro file ⟨⟩

theorem openFile_eq (file : StoredFile) :
    openFile file = file.load.map fun contents => ⟨contents, .file file⟩ := by
  unfold openFile
  cases file.load <;> rfl

theorem kept_of_openFile {file : StoredFile} {store : Store} (h : openFile file = .ok store) :
    store.Kept := by
  rw [openFile_eq] at h
  cases hload : file.load with
  | error e =>
    rw [hload] at h
    cases h
  | ok contents =>
    rw [hload] at h
    obtain rfl := Except.ok.inj h
    rintro _ ⟨⟩
    exact Or.inl hload

theorem contents_withScratch (store : Store) (slot : Slot) :
    (store.withScratch slot).contents = store.contents := by
  unfold withScratch
  split
  · rfl
  · split <;> rfl

/-- Stores that are alike differ in what stands at the scratch file's path. -/
theorem Alike.exists_withScratch {store store' : Store} (alike : store.Alike store') :
    ∃ slot, store' = store.withScratch slot := by
  obtain ⟨contents, medium⟩ := store
  obtain ⟨contents', medium'⟩ := store'
  obtain ⟨hcontents, hmedium⟩ := alike
  obtain rfl : contents' = contents := hcontents
  cases hmedium with
  | memory => exact ⟨.absent, rfl⟩
  | @file file file' same =>
    refine ⟨file'.scratch, ?_⟩
    have hfile : file' = { file with scratch := file'.scratch } := by rw [← same.target, ← same.shared]
    simp only [withScratch]
    cases hshared : file.shared with
    | true => rw [hfile, same.same hshared, if_pos rfl]
    | false => rw [if_neg Bool.false_ne_true, StoredFile.putScratch_of_apart hshared, ← hfile]

theorem Kept.withScratch {store : Store} (h : store.Kept) (slot : Slot) :
    (store.withScratch slot).Kept := by
  unfold Store.withScratch
  cases hmedium : store.medium with
  | memory => exact h
  | file file =>
    by_cases hshared : file.shared = true
    · simp only [if_pos hshared]
      exact h
    · simp only [if_neg hshared]
      rintro _ ⟨⟩
      rw [StoredFile.putScratch_of_apart (Bool.eq_false_iff.mpr hshared)]
      exact h file hmedium

theorem Apart.withScratch {store : Store} (h : store.Apart) (slot : Slot) :
    (store.withScratch slot).Apart := by
  unfold Store.withScratch
  cases hmedium : store.medium with
  | memory => exact h
  | file file =>
    have hshared := h file hmedium
    simp only [hshared, Bool.false_eq_true, if_false]
    rintro _ ⟨⟩
    exact (file.shared_putScratch slot).trans hshared

theorem Kept.alike {store store' : Store} (h : store.Kept) (alike : store.Alike store') :
    store'.Kept := by
  intro file' hmedium'
  obtain ⟨file, hfile, same⟩ := alike.exists_file hmedium'
  rw [same.load_eq, same.target, alike.contents]
  exact h file hfile

/-- A file that has been written stands for its contents. -/
theorem kept_written (next : Contents) (medium : Medium) : Kept ⟨next, written medium next⟩ := by
  intro file hmedium
  cases medium with
  | memory => cases hmedium
  | file old =>
    cases hmedium
    exact Or.inr rfl

/-- **A transaction takes effect as a whole or not at all.** When it succeeds after writing
something, the store holds what its draft reads. -/
theorem update_cases {α : Type} {store : Store} (h : store.Kept) (body : Write α) :
    ∃ store', store'.Kept ∧
      ((∃ a draft, body ⟨store.contents, ∅⟩ = .ok (a, draft) ∧ store.update body = (.ok a, store') ∧
          (draft.pending.isEmpty = false → store'.contents.snapshot = draft.get?)) ∨
        ∃ e, store.update body = (.error e, store') ∧ store'.contents = store.contents) := by
  cases hrun : body ⟨store.contents, ∅⟩ with
  | error e => exact ⟨store, h, Or.inr ⟨e, update_of_error hrun, rfl⟩⟩
  | ok result =>
    obtain ⟨a, draft⟩ := result
    cases hempty : draft.pending.isEmpty with
    | true =>
      refine ⟨store, h, Or.inl ⟨a, draft, rfl, update_of_empty hrun hempty, fun hwritten => ?_⟩⟩
      rw [hempty] at hwritten
      cases hwritten
    | false =>
      by_cases hclear : store.Clear
      · refine ⟨_, kept_written draft.merged store.medium,
          Or.inl ⟨a, draft, rfl, update_of_clear hclear hrun hempty, fun _ => ?_⟩⟩
        funext address
        exact draft.getElem?_merged address
      · obtain ⟨store', hupdate, halike⟩ := update_of_not_clear hclear hrun hempty
        exact ⟨store', h.alike halike, Or.inr ⟨_, hupdate, halike.contents⟩⟩

theorem isEmpty_pending_set (draft : Draft) (bucket : String) (key value : Bytes) :
    (draft.set bucket key value).pending.isEmpty = false :=
  Std.ExtTreeMap.isEmpty_eq_false_iff.mpr Std.ExtTreeMap.insert_ne_empty

/-- **A store read again from its file is the same store.** -/
theorem reread_eq {store : Store} (h : store.Kept) (hfits : store.contents.Fits) :
    store.reread = .ok store := by
  obtain ⟨contents, medium⟩ := store
  cases medium with
  | memory => rfl
  | file file =>
    have hload : file.load = .ok contents := by
      rcases h file rfl with hload | htarget
      · exact hload
      · rw [StoredFile.load, htarget]
        exact Contents.decode_encode hfits
    show openFile file = _
    rw [openFile_eq, hload]
    rfl

end Store

end TransparencyLog
