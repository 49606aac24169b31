import TransparencyLog.Binary
import TransparencyLog.Signer

/-!
# Signed tree heads

A head commits a log to its first `treeSize` leaves and to its map at that moment. The signature
covers the size, most significant byte first, and both roots.

* `TreeHead`, `TreeHead.digest`, `TreeHead.signed`, `TreeHead.verify`;
* `TreeHead.encode`, `TreeHead.decode`: the stored form;
* `MapEntry`: what the map holds for a key.
-/

namespace TransparencyLog

/-- A signed statement of a log's size and roots. -/
structure TreeHead where
  treeSize : UInt64
  logRoot : Digest
  mapRoot : Digest
  signature : Bytes
deriving DecidableEq, Repr

namespace TreeHead

/-- What a signature over a size and two roots is made on. -/
def digestOf (treeSize : UInt64) (logRoot mapRoot : Digest) : Digest :=
  sha256 (Bytes.bigEndian 8 treeSize.toNat ++ (logRoot.bytes ++ mapRoot.bytes))

/-- What the head's signature is made on. -/
def digest (head : TreeHead) : Digest := digestOf head.treeSize head.logRoot head.mapRoot

/-- Whether the head is signed by the holder of a key. -/
def verify (head : TreeHead) (signer : Signer) : Bool :=
  signer.verify head.digest.bytes head.signature

/-- The head over a size and two roots. -/
def signed (signer : Signer) (treeSize : UInt64) (logRoot mapRoot : Digest) :
    Except LogError TreeHead := do
  return ⟨treeSize, logRoot, mapRoot, ← signer.sign (digestOf treeSize logRoot mapRoot).bytes⟩

/-- The head's stored form. -/
def encode (head : TreeHead) : Bytes :=
  Binary.word head.treeSize ++ head.logRoot.bytes ++ head.mapRoot.bytes ++
    Binary.block head.signature

def reader : Binary.Reader TreeHead := do
  let treeSize ← Binary.readWord
  let logRoot ← Binary.readDigest
  let mapRoot ← Binary.readDigest
  let signature ← Binary.readBlock
  return ⟨treeSize, logRoot, mapRoot, signature⟩

def decode (bytes : Bytes) : Except LogError TreeHead := Binary.decode reader bytes

end TreeHead

/-- What the map holds for a key: its value and the index of the leaf that recorded it. -/
structure MapEntry where
  value : Bytes
  index : UInt64
deriving DecidableEq, Repr

namespace MapEntry

/-- The entry's stored form. -/
def encode (entry : MapEntry) : Bytes := Binary.block entry.value ++ Binary.word entry.index

def reader : Binary.Reader MapEntry := do
  let value ← Binary.readBlock
  let index ← Binary.readWord
  return ⟨value, index⟩

def decode (bytes : Bytes) : Except LogError MapEntry := Binary.decode reader bytes

end MapEntry

end TransparencyLog
