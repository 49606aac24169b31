import TransparencyLog.Error
import Std.Data.ExtTreeMap

/-!
# Contents of a store

A store is a finite map from addresses to byte strings. An address is a key inside a named bucket;
addresses are ordered by bucket and then by key, which is the order the file format lists them in.

* `Address`, `Contents`;
* `Snapshot`, `Snapshot.fetch`: reading, where an absent entry is an error;
* `Draft`: the committed contents with a transaction's own writes over them;
* **`Draft.get?_set`**, **`Draft.getElem?_merged`**: a draft reads its own writes, and merging it
  changes exactly what it reads.
-/

namespace TransparencyLog

/-- Where an entry of a store lives. -/
structure Address where
  bucket : String
  key : Bytes
deriving DecidableEq, Repr

/-- By bucket, then by key. -/
def Address.order : Address → Address → Ordering :=
  compareLex (compareOn Address.bucket) (compareOn Address.key)

instance : Std.TransCmp Address.order :=
  inferInstanceAs (Std.TransCmp (compareLex (compareOn Address.bucket) (compareOn Address.key)))

instance : Std.LawfulEqCmp Address.order where
  eq_of_compare {a b} h := by
    simp only [Address.order, compareLex, Ordering.then_eq_eq, compareOn,
      Std.LawfulEqCmp.compare_eq_iff_eq] at h
    cases a; cases b; simp_all

/-- Everything a store holds. -/
abbrev Contents := Std.ExtTreeMap Address Bytes Address.order

/-- A reading view of a store. -/
abbrev Snapshot := Address → Option Bytes

/-- The entry under a key of a bucket. -/
def Snapshot.fetch (view : Snapshot) (bucket : String) (key : Bytes) : Except LogError Bytes :=
  match view ⟨bucket, key⟩ with
  | some value => .ok value
  | none => .error (.notFound bucket key)

/-- The reading view of some contents. -/
def Contents.snapshot (contents : Contents) : Snapshot := fun address => contents[address]?

/-- A write transaction in progress. -/
structure Draft where
  base : Contents
  pending : Contents := ∅

namespace Draft

/-- The transaction's own write, or else the committed entry. -/
def get? (draft : Draft) : Snapshot := fun address => draft.pending[address]?.or draft.base[address]?

/-- The draft with one more write. -/
def set (draft : Draft) (bucket : String) (key value : Bytes) : Draft :=
  { draft with pending := draft.pending.insert ⟨bucket, key⟩ value }

/-- The contents once the writes are committed. -/
def merged (draft : Draft) : Contents := draft.base ∪ draft.pending

theorem get?_set (draft : Draft) (bucket : String) (key value : Bytes) (address : Address) :
    (draft.set bucket key value).get? address =
      if address = ⟨bucket, key⟩ then some value else draft.get? address := by
  simp only [get?, set, Std.ExtTreeMap.getElem?_insert, Std.LawfulEqCmp.compare_eq_iff_eq]
  by_cases h : address = ⟨bucket, key⟩
  · simp [h]
  · simp [h, Ne.symm h]

theorem getElem?_merged (draft : Draft) (address : Address) :
    draft.merged[address]? = draft.get? address := by
  simp [merged, get?, Std.ExtTreeMap.getElem?_union]

end Draft

/-- A write transaction: a computation over a draft. -/
abbrev Write (α : Type) := StateT Draft (Except LogError) α

namespace Write

/-- Reads what the transaction sees now. -/
def read {α : Type} (query : Snapshot → Except LogError α) : Write α := fun draft =>
  (query draft.get?).map fun value => (value, draft)

def put (bucket : String) (key value : Bytes) : Write Unit := fun draft =>
  .ok ((), draft.set bucket key value)

/-- Gives the transaction up. -/
def fail {α : Type} (error : LogError) : Write α := fun _ => .error error

end Write

end TransparencyLog
