import TransparencyLog.Binary
import TransparencyLog.Store.Contents

/-!
# Store files

A persistent store is one file that every commit replaces as a whole: the new contents go to a
scratch file, which is then renamed over it. If the two stand at different paths, a failure or crash
between the two steps leaves the old file as it was. If they stand at one path, the file itself is
written to.

* `Contents.encode`, `Contents.decode`: the file's bytes;
* `StoredFile`, with the steps `StoredFile.writeScratch?` and `StoredFile.rename?`;
* `Fault`, `StoredFile.replace`: both steps, and what can go wrong with them.
-/

namespace TransparencyLog

namespace Contents

/-- One entry: bucket, key and value. -/
def encodeEntry (entry : Address × Bytes) : Bytes :=
  Binary.text entry.1.bucket ++ Binary.block entry.1.key ++ Binary.block entry.2

/-- The number of entries, then the entries in order. -/
def encode (contents : Contents) : Bytes :=
  let entries := contents.toList
  Bytes.littleEndian 8 entries.length ++ entries.flatMap encodeEntry

def readEntry : Binary.Reader (Address × Bytes) := do
  let bucket ← Binary.readText
  let key ← Binary.readBlock
  let value ← Binary.readBlock
  return (⟨bucket, key⟩, value)

/-- Reads `count` entries into `contents`; a later entry for an address wins. -/
def readEntries : Nat → Contents → Binary.Reader Contents
  | 0, contents => pure contents
  | count + 1, contents => do
    let (address, value) ← readEntry
    readEntries count (contents.insert address value)

def reader : Binary.Reader Contents := do readEntries (← Binary.readNumber) ∅

/-- The contents that a file's bytes stand for. -/
def decode (bytes : Bytes) : Except LogError Contents := Binary.decode reader bytes

end Contents

/-- What stands at a path. -/
inductive Slot
  | absent
  | file (bytes : Bytes)
  | directory
deriving DecidableEq, Repr

/-- The two paths of a persistent store: its file and the scratch file of a commit. The two paths may
be one, and then both slots show what stands there. -/
structure StoredFile where
  target : Slot := .absent
  scratch : Slot := .absent
  shared : Bool := false
deriving DecidableEq, Repr

/-- What goes wrong with a commit although nothing was in its way: the scratch file is written in part
only, or it is written and then not renamed. -/
inductive Fault
  | torn (written : Nat)
  | unrenamed
deriving DecidableEq, Repr

namespace StoredFile

/-- Puts something at the path of the scratch file. -/
def putScratch (file : StoredFile) (slot : Slot) : StoredFile :=
  if file.shared then { file with target := slot, scratch := slot } else { file with scratch := slot }

/-- Writes the scratch file, unless a directory stands in its way. -/
def writeScratch? (file : StoredFile) (bytes : Bytes) : Option StoredFile :=
  if file.scratch = .directory ∨ file.shared ∧ file.target = .directory then none
  else some (file.putScratch (.file bytes))

/-- The file once its scratch file has been renamed. -/
def installed (file : StoredFile) (bytes : Bytes) : StoredFile :=
  { file with target := .file bytes, scratch := if file.shared then .file bytes else .absent }

/-- Renames the scratch file over the target, unless the target is a directory. -/
def rename? (file : StoredFile) : Option StoredFile :=
  if file.target = .directory then none
  else match file.scratch with
    | .file bytes => some (file.installed bytes)
    | _ => none

/-- Replaces the file's bytes: the scratch file first, then the rename. -/
def replace (file : StoredFile) (bytes : Bytes) (fault : Option Fault := none) :
    Except LogError Unit × StoredFile :=
  match file.writeScratch? bytes with
  | none => (.error (.storage .unwritable), file)
  | some written =>
    match fault with
    | some (.torn count) => (.error (.storage .unwritable), file.putScratch (.file (bytes.take count)))
    | some .unrenamed => (.error (.storage .unwritable), written)
    | none =>
      match written.rename? with
      | none => (.error (.storage .unwritable), written)
      | some renamed => (.ok (), renamed)

/-- The contents on disk; no file stands for an empty store. -/
def load (file : StoredFile) : Except LogError Contents :=
  match file.target with
  | .absent => .ok ∅
  | .file bytes => Contents.decode bytes
  | .directory => .error (.storage .unreadable)

end StoredFile

end TransparencyLog
