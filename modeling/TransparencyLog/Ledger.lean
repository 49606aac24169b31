import TransparencyLog.Head
import TransparencyLog.SparseMap.Compressed
import TransparencyLog.Store.Basic
import TransparencyLog.Tree.Log

/-!
# The authoritative log

A ledger records batches of pairs. A batch goes into the log and the map in one transaction, which
ends by storing a new signed head; only then is that head published. A key is recorded once: a
batch with a known or repeated key is refused as a whole.

The store is not part of the ledger: several ledgers may be opened on one store, one after the
other.

* `Ledger`, `Ledger.resume`: opening a store;
* `Ledger.record`: the transaction of a batch; `Ledger.publish`: showing its head;
* `Ledger.submit`: checks, transaction and publication together;
* `Ledger.entries`, `Ledger.records`, `Ledger.mapValue`, `Ledger.query`, and the proofs.
-/

namespace TransparencyLog

/-- An open log: its name, its signer and the head it shows. -/
structure Ledger where
  name : String
  signer : Signer
  head : TreeHead

namespace Ledger

/-! ## The stored head -/

def headBucket : String := "META"

def headKey : Bytes := Bytes.ofText "HEAD"

def storedHead (view : Snapshot) : Except LogError TreeHead := do
  TreeHead.decode (← view.fetch headBucket headKey)

def storeHead (head : TreeHead) : Write Unit := Write.put headBucket headKey head.encode

/-- The log at the size of the stored head. -/
def storedLog (view : Snapshot) : Except LogError LogView := do
  return ⟨(← storedHead view).treeSize.toNat⟩

/-! ## Opening -/

/-- Opens a store: with the head stored there, if it is signed by this signer, or with a newly
signed head over nothing. -/
def resume (name : String) (signer : Signer) (store : Store) (fault : Option Fault := none) :
    Except LogError Ledger × Store :=
  match store.view storedHead with
  | .ok head =>
    if head.verify signer then (.ok ⟨name, signer, head⟩, store) else (.error .badSignature, store)
  | .error e =>
    if e.isNotFound then
      match TreeHead.signed signer 0 emptyRoot SparseMap.emptyRoot with
      | .error e => (.error e, store)
      | .ok genesis =>
        let (outcome, store) := store.update (storeHead genesis) fault
        (outcome.map fun _ => ⟨name, signer, genesis⟩, store)
    else (.error e, store)

/-! ## Submitting -/

/-- Refuses a pair whose record would not fit one leaf. -/
def checkSizes : List Record → Except LogError Unit
  | [] => .ok ()
  | item :: rest => do
    Record.checkSize item.key item.value
    checkSizes rest

/-- Refuses a key that the batch has already had or the map with this root holds. -/
def checkNew (view : Snapshot) (mapRoot : Digest) : List Bytes → List Record → Except LogError Unit
  | _, [] => .ok ()
  | seen, item :: rest => do
    if seen.contains item.key then throw (.duplicateKey item.key)
    if (← SparseMap.get view mapRoot item.key).isSome then throw (.duplicateKey item.key)
    checkNew view mapRoot (item.key :: seen) rest

/-- Appends pairs to the log and sets their keys in the map. -/
def appendAll : LogView → Digest → List Record → Write (LogView × Digest)
  | log, mapRoot, [] => pure (log, mapRoot)
  | log, mapRoot, item :: rest => do
    let grown ← log.append (← (item.encode : Except LogError Bytes))
    let entry : MapEntry := ⟨item.value, UInt64.ofNat log.size⟩
    let mapRoot ← SparseMap.update mapRoot item.key entry.encode
    appendAll grown mapRoot rest

/-- The transaction of a batch: gives the new head once everything is stored. -/
def record (signer : Signer) (items : List Record) : Write TreeHead := do
  let head ← Write.read storedHead
  Write.read fun view => checkNew view head.mapRoot [] items
  let (log, mapRoot) ← appendAll ⟨head.treeSize.toNat⟩ head.mapRoot items
  let logRoot ← Write.read log.root
  let head ← (TreeHead.signed signer (UInt64.ofNat log.size) logRoot mapRoot :
    Except LogError TreeHead)
  storeHead head
  return head

/-- Shows a committed head, unless a larger one is already shown. -/
def publish (ledger : Ledger) (head : TreeHead) : Ledger :=
  if ledger.head.treeSize ≤ head.treeSize then { ledger with head } else ledger

/-- What is checked before a batch reaches the store. -/
def checkBatch (signer : Signer) (items : List Record) : Except LogError Unit := do
  if !signer.canSign then throw .cannotSign
  checkSizes items

/-- Commits a batch to the store, without publishing its head. -/
def commit (signer : Signer) (store : Store) (items : List Record) (fault : Option Fault := none) :
    Except LogError TreeHead × Store :=
  match checkBatch signer items with
  | .error e => (.error e, store)
  | .ok () => store.update (record signer items) fault

def submit (ledger : Ledger) (store : Store) (items : List Record) (fault : Option Fault := none) :
    Except LogError TreeHead × Ledger × Store :=
  match commit ledger.signer store items fault with
  | (.ok head, store) => (.ok head, ledger.publish head, store)
  | (.error e, store) => (.error e, ledger, store)

/-! ## Reading -/

/-- The proof that the first `first` leaves are the beginning of the first `second` leaves. -/
def consistencyProof (store : Store) (first second : Nat) : Except LogError (List Digest) :=
  store.view fun view => do (← storedLog view).consistencyProof view first second

/-- The proof that the leaf `index` is among the first `size` leaves. -/
def auditProof (store : Store) (index size : Nat) : Except LogError (List Digest) :=
  store.view fun view => do (← storedLog view).auditProof view index size

/-- The root over the first `size` leaves. -/
def rootAt (store : Store) (size : Nat) : Except LogError Digest :=
  store.view fun view => do (← storedLog view).rootAt view size

/-- The data of the leaves from `start` to `finish`, both included. -/
def entries (store : Store) (start finish : Nat) : Except LogError (List Bytes) :=
  if finish < start then .error (.outOfRange (.startAfterFinish start finish))
  else store.view fun view => do (← storedLog view).leaves view start (finish - start + 1)

/-- The pairs recorded from `start` to `finish`, both included. -/
def records (store : Store) (start finish : Nat) : Except LogError (List Record) := do
  (← entries store start finish).mapM Record.decode

/-- The map's answer for a key under a root, with its proof. -/
def mapValue (store : Store) (key : Bytes) (mapRoot : Digest) :
    Except LogError (Option Bytes × List Digest) :=
  store.view fun view => do
    let value ← SparseMap.get view mapRoot key
    let proof ← SparseMap.prove view mapRoot key
    return (value, proof)

/-- The entry for a key at the head shown, after checking its proof. -/
def query (ledger : Ledger) (store : Store) (key : Bytes) : Except LogError (Option MapEntry) := do
  let (value, proof) ← mapValue store key ledger.head.mapRoot
  if !SparseMap.verify proof ledger.head.mapRoot key value then throw .invalidProof
  value.mapM MapEntry.decode

end Ledger

end TransparencyLog
