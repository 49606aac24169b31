import TransparencyLog.Head
import TransparencyLog.Record
import TransparencyLog.SparseMap.Compressed
import TransparencyLog.Wire.Fields

/-!
# Messages

The messages that logs and their clients exchange. Each has three shapes: the value it is about,
a form whose byte fields are texts, and the data that is written as a line of text.

* `Wire.HeadForm`, `Wire.ProofForm`, `Wire.EntriesForm`, `Wire.MapValueForm`, `Wire.SubmitForm`;
* for each form `ofX` and its inverse, `toData` and its inverse `ofData?`;
* `Wire.readHead`, `Wire.readProof`, `Wire.readLeaves`, `Wire.readMapValue`, `Wire.readBatch`: values
  from the text of a message.
-/

namespace TransparencyLog.Wire

/-! ## Heads -/

/-- A signed tree head with its bytes as text. -/
structure HeadForm where
  treeSize : UInt64
  logRoot : String
  mapRoot : String
  signature : String
deriving DecidableEq, Repr

namespace HeadForm

def ofHead (head : TreeHead) : HeadForm :=
  ⟨head.treeSize, head.logRoot.text, head.mapRoot.text, Hex.encode head.signature⟩

def head (form : HeadForm) : Except Fault TreeHead := do
  let logRoot ← digestOf "log_root" form.logRoot
  let mapRoot ← digestOf "map_root" form.mapRoot
  let signature ← bytesOf "signature" form.signature
  return ⟨form.treeSize, logRoot, mapRoot, signature⟩

def toData (form : HeadForm) : Data :=
  .object [("tree_size", .integer form.treeSize.toNat), ("log_root", .text form.logRoot),
    ("map_root", .text form.mapRoot), ("signature", .text form.signature)]

def ofData? (d : Data) : Option HeadForm := do
  match ← d.fields? ["tree_size", "log_root", "map_root", "signature"] with
  | [some size, some logRoot, some mapRoot, some signature] =>
    return ⟨UInt64.ofNat (← size.natural? UInt64.size), ← logRoot.text?, ← mapRoot.text?,
      ← signature.text?⟩
  | _ => none

end HeadForm

/-! ## Proofs -/

/-- An audit or consistency proof with its digests as text. -/
structure ProofForm where
  proof : List String
deriving DecidableEq, Repr

namespace ProofForm

def ofDigests (proof : List Digest) : ProofForm := ⟨proof.map Digest.text⟩

def digests (form : ProofForm) : Except Fault (List Digest) := digestsOf "proof" form.proof

def toData (form : ProofForm) : Data := .object [("proof", textsToData form.proof)]

def ofData? (d : Data) : Option ProofForm := do
  match ← d.fields? ["proof"] with
  | [some proof] => return ⟨← textsOfData? proof⟩
  | _ => none

end ProofForm

/-! ## Entries -/

/-- The data of some leaves as text. -/
structure EntriesForm where
  entries : List String
deriving DecidableEq, Repr

namespace EntriesForm

def ofLeaves (leaves : List Bytes) : EntriesForm := ⟨leaves.map Hex.encode⟩

def leaves (form : EntriesForm) : Except Fault (List Bytes) :=
  form.entries.mapM (bytesOf "entries")

def toData (form : EntriesForm) : Data := .object [("entries", textsToData form.entries)]

def ofData? (d : Data) : Option EntriesForm := do
  match ← d.fields? ["entries"] with
  | [some entries] => return ⟨← textsOfData? entries⟩
  | _ => none

end EntriesForm

/-! ## Map values -/

/-- A map's answer for a key with its bytes as text. -/
structure MapValueForm where
  value : Option String
  depth : UInt16
  bitmap : String
  siblings : List String
deriving DecidableEq, Repr

namespace MapValueForm

def ofMapValue (answer : MapValue) : MapValueForm :=
  ⟨answer.value.map Hex.encode, answer.proof.depth, Hex.encode answer.proof.bitmap,
    answer.proof.siblings.map Digest.text⟩

def mapValue (form : MapValueForm) : Except Fault MapValue := do
  let value ← form.value.mapM (bytesOf "value")
  let bitmap ← bytesOf "bitmap" form.bitmap
  let siblings ← digestsOf "siblings" form.siblings
  return ⟨value, ⟨form.depth, bitmap, siblings⟩⟩

def toData (form : MapValueForm) : Data :=
  .object [("value", (form.value.map Data.text).getD .null), ("depth", .integer form.depth.toNat),
    ("bitmap", .text form.bitmap), ("siblings", textsToData form.siblings)]

/-- Reads an optional text: nothing and null both mean that there is none. -/
def optionalText? : Option Data → Option (Option String)
  | none => some none
  | some .null => some none
  | some d => d.text?.map some

def ofData? (d : Data) : Option MapValueForm := do
  match ← d.fields? ["value", "depth", "bitmap", "siblings"] with
  | [value, some depth, some bitmap, some siblings] =>
    return ⟨← optionalText? value, UInt16.ofNat (← depth.natural? UInt16.size), ← bitmap.text?,
      ← textsOfData? siblings⟩
  | _ => none

end MapValueForm

/-! ## Batches to submit -/

/-- A batch of pairs with their bytes as text. -/
structure SubmitForm where
  items : List (String × String)
deriving DecidableEq, Repr

namespace SubmitForm

def ofRecords (items : List Record) : SubmitForm :=
  ⟨items.map fun item => (Hex.encode item.key, Hex.encode item.value)⟩

def recordOf (item : String × String) : Except Fault Record := do
  let key ← bytesOf "key" item.1
  let value ← bytesOf "value" item.2
  return ⟨key, value⟩

def records (form : SubmitForm) : Except Fault (List Record) := form.items.mapM recordOf

def itemToData (item : String × String) : Data :=
  .object [("key", .text item.1), ("value", .text item.2)]

def toData (form : SubmitForm) : Data := .object [("items", .list (form.items.map itemToData))]

def itemOfData? (d : Data) : Option (String × String) := do
  match ← d.fields? ["key", "value"] with
  | [some key, some value] => return (← key.text?, ← value.text?)
  | _ => none

def ofData? (d : Data) : Option SubmitForm := do
  match ← d.fields? ["items"] with
  | [some items] => return ⟨← (← items.list?).mapM itemOfData?⟩
  | _ => none

end SubmitForm

/-! ## Texts -/

/-- The form that the text of a message stands for. -/
def parse {α : Type} (ofData? : Data → Option α) (text : Bytes) : Except Fault α :=
  match (Json.parse? text).bind ofData? with
  | some form => .ok form
  | none => .error .form

/-- The value that the text of a message stands for. -/
def read {α β : Type} (ofData? : Data → Option α) (value : α → Except Fault β) (text : Bytes) :
    Except Fault β := do
  value (← parse ofData? text)

def readHead : Bytes → Except Fault TreeHead := read HeadForm.ofData? HeadForm.head

def readProof : Bytes → Except Fault (List Digest) := read ProofForm.ofData? ProofForm.digests

def readLeaves : Bytes → Except Fault (List Bytes) := read EntriesForm.ofData? EntriesForm.leaves

def readMapValue : Bytes → Except Fault MapValue := read MapValueForm.ofData? MapValueForm.mapValue

def readBatch : Bytes → Except Fault (List Record) := read SubmitForm.ofData? SubmitForm.records

end TransparencyLog.Wire
