import TransparencyLog.Store.File

/-!
# Stores

A store answers views of its contents and runs updates that take effect as a whole or not at all.
It lives in memory alone, or in memory and in a file; the file is replaced before memory changes,
so a failed commit leaves memory as it was, and the file too if its scratch file has a path of its own.

* `Store`, `Store.inMemory`, `Store.openFile`;
* `Store.view`, `Store.update`.
-/

namespace TransparencyLog

/-- Where a store keeps its contents besides memory. -/
inductive Medium
  | memory
  | file (file : StoredFile)

/-- A store: its committed contents and where they are kept. -/
structure Store where
  contents : Contents := ∅
  medium : Medium := .memory

namespace Store

def inMemory : Store := {}

/-- The store kept in a file. -/
def openFile (file : StoredFile) : Except LogError Store := do
  return ⟨← file.load, .file file⟩

/-- Answers a question about the committed contents. -/
def view {α : Type} (store : Store) (query : Snapshot → Except LogError α) : Except LogError α :=
  query store.contents.snapshot

/-- Makes new contents the committed ones. A fault is one of the file; memory has none. -/
def commit (store : Store) (next : Contents) (fault : Option Fault := none) :
    Except LogError Unit × Store :=
  match store.medium with
  | .memory => (.ok (), ⟨next, .memory⟩)
  | .file file =>
    match file.replace next.encode fault with
    | (.ok (), file) => (.ok (), ⟨next, .file file⟩)
    | (.error e, file) => (.error e, { store with medium := .file file })

/-- Runs a transaction and commits its writes if it succeeds. A file is left alone when nothing was
written. -/
def update {α : Type} (store : Store) (body : Write α) (fault : Option Fault := none) :
    Except LogError α × Store :=
  match body { base := store.contents } with
  | .error e => (.error e, store)
  | .ok (value, draft) =>
    if draft.pending.isEmpty then (.ok value, store)
    else
      let (outcome, store) := store.commit draft.merged fault
      (outcome.map fun _ => value, store)

end Store

end TransparencyLog
