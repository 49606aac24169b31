import TransparencyLog.Proofs.Store.File
import TransparencyLog.Store.Folder

/-!
# The paths of a store

The scratch file of a store stands beside its file, under the same name but for the extension. So it
stands at another path unless the name of the store already ends as that of a scratch file does; in that
case there is one file, and a commit writes to it.

* `Path.scratch_ne`: when the two paths are two;
* `Folder.slot_put`, `Folder.hasWay_put`: what keeping files does to a folder;
* `StoredFile.At`: a file as it can be at a path, `Folder.at_storedFile`, `StoredFile.At.replace`;
* `Folder.storedFile_keep`, **`Folder.openFile_keep`**: files that are kept are found again;
* `Folder.apart_of_openFile`: a store opened where the two paths are two.
-/

namespace TransparencyLog

/-! ## Paths -/

namespace Path

/-- **The scratch file of a store** stands at another path, unless the store's own path has its extension. -/
theorem scratch_ne {path : Path} {name : String} (hlast : path.getLast? = some name)
    (hextension : ¬ ".tmp".toList <:+ name.toList) : path.scratch ≠ path := by
  intro hsame
  have hname : replaceExtension "tmp" name = name := by
    have hlast' := congrArg List.getLast? hsame
    rw [scratch, hlast, Option.map_some, Option.toList_some, List.getLast?_concat] at hlast'
    exact Option.some.inj hlast'
  apply hextension
  rw [← hname, replaceExtension, String.append_assoc, String.toList_append]
  exact List.suffix_append _ _

theorem length_scratch (path : Path) : path.scratch.length = path.length := by
  cases hlast : path.getLast? with
  | none =>
    obtain rfl := List.getLast?_eq_none_iff.mp hlast
    rfl
  | some name =>
    have hpos : 0 < path.length := List.length_pos_of_mem (List.mem_of_getLast? hlast)
    rw [scratch, hlast, Option.map_some, Option.toList_some, List.length_append,
      List.length_dropLast, List.length_singleton]
    omega

end Path

/-! ## Folders -/

namespace Folder

variable {folder : Folder} {path : Path} {file : StoredFile}

theorem slot_put (folder : Folder) (path : Path) (slot : Slot) (other : Path) :
    (folder.put path slot).slot other = if other = path then slot else folder.slot other := by
  have hrest (hne : other ≠ path) :
      (folder.slots.filter fun entry => entry.1 != path).lookup other = folder.slots.lookup other := by
    induction folder.slots with
    | nil => rfl
    | cons entry rest ih =>
      rw [List.filter_cons, List.lookup_cons]
      by_cases hentry : entry.1 = path
      · rw [if_neg (by simp [hentry]), ih, beq_false_of_ne (hentry ▸ hne)]
      · rw [if_pos (by simp [hentry]), List.lookup_cons, ih]
  rw [Folder.slot, put, List.lookup_cons]
  by_cases heq : other = path
  · rw [if_pos heq, beq_iff_eq.mpr heq]
    rfl
  · rw [if_neg heq, beq_false_of_ne heq]
    exact congrArg (Option.getD · .absent) (hrest heq)

/-- Whether a file can stand at a path does not depend on what stands there. -/
theorem hasWay_put (folder : Folder) (path : Path) {other : Path} (slot : Slot)
    (hlength : other.length = path.length) : (folder.put other slot).hasWay path = folder.hasWay path := by
  rw [hasWay, isDirectory, slot_put, hasWay, isDirectory]
  by_cases hempty : path = []
  · rw [hempty]
    rfl
  · have hpos : 0 < path.length := List.length_pos_iff.mpr hempty
    rw [if_neg fun heq => ?_]
    have hlengths := congrArg List.length heq
    rw [List.length_dropLast] at hlengths
    omega

end Folder

/-! ## The files of a store -/

/-- A file as it can be at a path where a file can stand. -/
structure StoredFile.At (file : StoredFile) (path : Path) : Prop where
  shared : file.shared = (path.scratch == path)
  same : file.shared = true → file.scratch = file.target

namespace StoredFile

variable {file : StoredFile} {path : Path}

theorem same_putScratch (file : StoredFile) (slot : Slot) (shared : file.shared = true) :
    (file.putScratch slot).scratch = (file.putScratch slot).target := by
  rw [scratch_putScratch, target_putScratch, if_pos shared]

/-- **A commit**, whatever becomes of it, leaves such a file. -/
theorem At.replace (h : file.At path) (bytes : Bytes) (fault : Option Fault) :
    (file.replace bytes fault).2.At path := by
  refine ⟨(file.shared_replace bytes fault).trans h.shared, ?_⟩
  rw [shared_replace]
  unfold StoredFile.replace
  cases hwrite : file.writeScratch? bytes with
  | none => exact h.same
  | some written =>
    obtain rfl := of_writeScratch hwrite
    cases fault with
    | some fault => cases fault <;> exact file.same_putScratch _
    | none =>
      simp only
      cases hrename : (file.putScratch (.file bytes)).rename? with
      | none => exact file.same_putScratch _
      | some renamed =>
        obtain rfl := of_rename hrename (file.scratch_putScratch _)
        rw [installed_putScratch]
        exact fun shared => if_pos shared

end StoredFile

namespace Folder

variable {folder : Folder} {path : Path} {file : StoredFile}

theorem at_storedFile (way : folder.hasWay path = true) : (folder.storedFile path).At path := by
  refine ⟨rfl, fun shared => ?_⟩
  have hpath : path.scratch = path := beq_iff_eq.mp shared
  simp only [storedFile, way, if_true, hpath]

/-- **Files that are kept** are found again. -/
theorem storedFile_keep (way : folder.hasWay path = true) (h : file.At path) (contents : Contents) :
    (folder.keep path ⟨contents, .file file⟩).storedFile path = file := by
  have hway : ((folder.put path file.target).put path.scratch file.scratch).hasWay path = true := by
    rw [hasWay_put _ _ _ path.length_scratch, hasWay_put _ _ _ rfl, way]
  have htarget : (if path = path.scratch then file.scratch else file.target) = file.target := by
    split
    · next hsame => exact h.same (h.shared.trans (beq_iff_eq.mpr hsame.symm))
    · rfl
  simp only [keep, way, if_true, storedFile, hway, slot_put, htarget, ← h.shared]

/-- **What a commit has left**, with or without a fault, is what is found at the path later. -/
theorem openFile_keep (way : folder.hasWay path = true) (contents next : Contents)
    (fault : Option Fault) {store : Store}
    (h : (Store.commit ⟨contents, .file (folder.storedFile path)⟩ next fault).2 = store) :
    Store.openFile ((folder.keep path store).storedFile path) = store.reread := by
  have hat := (at_storedFile way).replace next.encode fault
  simp only [Store.commit] at h
  rcases hreplace : (folder.storedFile path).replace next.encode fault with ⟨outcome, file⟩
  rw [hreplace] at h hat
  cases outcome with
  | ok _ =>
    subst h
    rw [storedFile_keep way hat]
    rfl
  | error e =>
    subst h
    rw [storedFile_keep way hat]
    rfl

theorem shared_storedFile (folder : Folder) (apart : path.scratch ≠ path) :
    (folder.storedFile path).shared = false := beq_false_of_ne apart

/-- A store that is opened where its two paths are two. -/
theorem apart_of_openFile {store : Store} (apart : path.scratch ≠ path)
    (h : Store.openFile (folder.storedFile path) = .ok store) : store.Apart := by
  rw [Store.openFile_eq] at h
  cases hload : (folder.storedFile path).load with
  | error e =>
    rw [hload] at h
    cases h
  | ok contents =>
    rw [hload] at h
    cases h
    rintro _ ⟨⟩
    exact folder.shared_storedFile apart

end Folder

end TransparencyLog
