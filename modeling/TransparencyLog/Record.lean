import TransparencyLog.Error

/-!
# Records and their framing

A log leaf carries one submitted pair as a record of two fields, and a stored tree node is framed
the same way: every field stands behind its length in two bytes. So a field has at most 65535
bytes, and a record, itself a field of its leaf, at most 65531 bytes of key and value.

* `Framing.encode`, `Framing.decode`;
* `Record`, `Record.checkSize`, `Record.encode`, `Record.decode`;
* `Node`: a stored node of the tree, its digest bytes and, on the lowest level, the leaf's data.
-/

namespace TransparencyLog

namespace Framing

/-- The most bytes a field may have. -/
def maxField : Nat := 65535

/-- Refuses a field whose length does not fit its two bytes. -/
def checkField (field : Bytes) : Except LogError Unit :=
  if maxField < field.length then .error (.recordTooLarge field.length) else .ok ()

/-- The fields, each behind its length. -/
def encode : List Bytes → Except LogError Bytes
  | [] => .ok []
  | field :: rest => do
    checkField field
    let tail ← encode rest
    return Bytes.littleEndian 2 field.length ++ (field ++ tail)

/-- Reads `count` fields, the first of them number `index`, and nothing after them. -/
def decodeFrom (index : Nat) : Nat → Bytes → Except LogError (List Bytes)
  | 0, [] => .ok []
  | 0, rest => .error (.malformedRecord (.trailing rest.length))
  | count + 1, low :: high :: rest => do
    let length := Bytes.number [low, high]
    if rest.length < length then throw (.malformedRecord (.truncated index))
    let tail ← decodeFrom (index + 1) count (rest.drop length)
    return rest.take length :: tail
  | _ + 1, _ => .error (.malformedRecord (.missingLength index))

/-- Reads exactly two fields. -/
def decodePair (bytes : Bytes) : Except LogError (Bytes × Bytes) := do
  match ← decodeFrom 0 2 bytes with
  | [first, second] => return (first, second)
  | _ => throw (.malformedRecord (.missingLength 0))

end Framing

/-- A submitted pair. -/
structure Record where
  key : Bytes
  value : Bytes
deriving DecidableEq, Repr

namespace Record

/-- The most bytes key and value may have together. -/
def maxPayload : Nat := Framing.maxField - 4

/-- Refuses a pair whose record would not fit one leaf. -/
def checkSize (key value : Bytes) : Except LogError Unit :=
  let payload := key.length + value.length
  if maxPayload < payload then .error (.recordTooLarge (payload + 4)) else .ok ()

def encode (record : Record) : Except LogError Bytes := Framing.encode [record.key, record.value]

def decode (bytes : Bytes) : Except LogError Record :=
  (Framing.decodePair bytes).map fun (key, value) => ⟨key, value⟩

end Record

/-- A stored node of the tree. -/
structure Node where
  digest : Bytes
  value : Bytes
deriving DecidableEq, Repr

namespace Node

/-- A node whose fields fit. -/
def make (digest value : Bytes) : Except LogError Node := do
  Framing.checkField digest
  Framing.checkField value
  return ⟨digest, value⟩

def encode (node : Node) : Except LogError Bytes := Framing.encode [node.digest, node.value]

def decode (bytes : Bytes) : Except LogError Node :=
  (Framing.decodePair bytes).map fun (digest, value) => ⟨digest, value⟩

end Node

end TransparencyLog
