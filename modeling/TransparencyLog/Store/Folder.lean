import TransparencyLog.Store.Basic

/-!
# Folders

The files that a program keeps, by their paths. A file can stand only in a directory; what cannot
become a file counts as a directory.

* `Path`, `Path.ofText`;
* `Folder`, `Folder.read?`, `Folder.write?`, `Folder.makeDirectories?`;
* `Folder.storedFile`, `Folder.keep`: the files of a store.
-/

namespace TransparencyLog

/-- The names on the way from the root. -/
abbrev Path := List String

namespace Path

/-- Goes one name further. -/
def enter (path : Path) (name : String) : Path :=
  if name = "" ∨ name = "." then path else if name = ".." then path.dropLast else path ++ [name]

def ofText (text : String) : Path := (text.splitToList (· == '/')).foldl enter []

/-- A file name with its extension replaced. -/
def replaceExtension (extension name : String) : String :=
  let stem := ((name.toList.reverse.dropWhile (· != '.')).drop 1).reverse
  (if stem.isEmpty then name else String.ofList stem) ++ "." ++ extension

/-- The scratch file beside a file. -/
def scratch (path : Path) : Path :=
  path.dropLast ++ (path.getLast?.map (replaceExtension "tmp")).toList

end Path

/-- What stands at each path. -/
structure Folder where
  slots : List (Path × Slot) := []

namespace Folder

/-- What stands at a path. -/
def slot (folder : Folder) (path : Path) : Slot := (folder.slots.lookup path).getD .absent

/-- Puts something at a path. -/
def put (folder : Folder) (path : Path) (slot : Slot) : Folder :=
  ⟨(path, slot) :: folder.slots.filter fun entry => entry.1 != path⟩

def isDirectory (folder : Folder) (path : Path) : Bool :=
  path.isEmpty || folder.slot path == .directory

/-- Whether a file can stand at a path, as far as the way there goes. -/
def hasWay (folder : Folder) (path : Path) : Bool := folder.isDirectory path.dropLast

def read? (folder : Folder) (path : Path) : Option Bytes :=
  match folder.slot path with
  | .file bytes => some bytes
  | _ => none

/-- Writes a file, unless there is no way there or a directory stands there. -/
def write? (folder : Folder) (path : Path) (bytes : Bytes) : Option Folder :=
  if folder.hasWay path && folder.slot path != .directory then some (folder.put path (.file bytes))
  else none

/-- Makes the directories on the way from one path further down, unless a file stands there. -/
def makeFrom : Folder → Path → List String → Option Folder
  | folder, _, [] => some folder
  | folder, above, name :: rest =>
    let path := above ++ [name]
    match folder.slot path with
    | .file _ => none
    | .directory => makeFrom folder path rest
    | .absent => makeFrom (folder.put path .directory) path rest

/-- Makes a directory and those above it. -/
def makeDirectories? (folder : Folder) (path : Path) : Option Folder := folder.makeFrom [] path

/-! ## Stores -/

/-- The two files of a store, or the one file if the scratch file's path is the store's own. -/
def storedFile (folder : Folder) (path : Path) : StoredFile :=
  { target := folder.slot path
    scratch := if folder.hasWay path then folder.slot path.scratch else .directory
    shared := path.scratch == path }

/-- Puts the files of a store where they belong. -/
def keep (folder : Folder) (path : Path) (store : Store) : Folder :=
  match store.medium with
  | .memory => folder
  | .file file =>
    if folder.hasWay path then (folder.put path file.target).put path.scratch file.scratch
    else folder

end Folder

/-- The store with the files that now stand at its path. -/
def Store.withFilesAt (store : Store) (folder : Folder) (path : Path) : Store :=
  match store.medium with
  | .memory => store
  | .file _ => { store with medium := .file (folder.storedFile path) }

end TransparencyLog
