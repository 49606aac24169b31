import TransparencyLog.Text.Hex
import TransparencyLog.Text.Utf8

/-!
# Errors of a log

Every way a log, its map, its keys or its store can refuse a request. An error is its cause; the
wording lives in `LogError.message`.

* `LogError`, `LogError.message`.
-/

namespace TransparencyLog

/-- A request for sizes or leaves that the log does not have. -/
inductive RangeFault
  | sizeBeyond (size treeSize : Nat)
  | leafBeyond (index treeSize : Nat)
  | leafNotIn (index size : Nat)
  | firstExceedsSecond (first second : Nat)
  | startAfterFinish (start finish : Nat)
  | stated (text : String)
deriving DecidableEq, Repr

def RangeFault.message : RangeFault → String
  | .sizeBeyond size treeSize =>
    "size " ++ toString size ++ " beyond tree size " ++ toString treeSize
  | .leafBeyond index treeSize =>
    "leaf " ++ toString index ++ " beyond tree size " ++ toString treeSize
  | .leafNotIn index size =>
    "leaf " ++ toString index ++ " not in tree of size " ++ toString size
  | .firstExceedsSecond first second =>
    "first size " ++ toString first ++ " exceeds second size " ++ toString second
  | .startAfterFinish start finish =>
    "start " ++ toString start ++ " after finish " ++ toString finish
  | .stated text => text

/-- Stored bytes that do not have the form they should have. -/
inductive RecordFault
  | missingLength (field : Nat)
  | truncated (field : Nat)
  | trailing (count : Nat)
  | nodeDigestLength (level index : Nat)
  | mapNodeLength (node : Bytes) (length : Nat)
deriving DecidableEq, Repr

def RecordFault.message : RecordFault → String
  | .missingLength field => "missing length of field " ++ toString field
  | .truncated field => "field " ++ toString field ++ " truncated"
  | .trailing count => toString count ++ " trailing bytes"
  | .nodeDigestLength level index =>
    "node " ++ toString level ++ "/" ++ toString index ++ " digest length"
  | .mapNodeLength node length =>
    "map node " ++ Hex.encode node ++ " has " ++ toString length ++ " bytes"

/-- A text or file that is no key. -/
inductive KeyFault
  | hex (fault : Hex.Fault)
  | length (count : Nat)
  | notOnCurve
  | unreadable (path : String)
deriving DecidableEq, Repr

def KeyFault.message : KeyFault → String
  | .hex fault => fault.message
  | .length count => "expected 32 key bytes, got " ++ toString count
  | .notOnCurve => "signature error: Cannot decompress Edwards point"
  | .unreadable path => path ++ ": cannot be read"

/-- A failure of the storage below the log: one that it states itself, or a file that cannot be read or
written. The text of such a failure is the operating system's; it is given here for a directory that
stands where the file should be. -/
inductive StorageFault
  | stated (text : String)
  | unreadable
  | unwritable
deriving DecidableEq, Repr

def StorageFault.message : StorageFault → String
  | .stated text => text
  | .unreadable => "Is a directory (os error 21)"
  | .unwritable => "Is a directory (os error 21)"

/-- Why a log refuses a request. -/
inductive LogError
  | outOfRange (fault : RangeFault)
  | malformedRecord (fault : RecordFault)
  | recordTooLarge (size : Nat)
  | invalidProof
  | duplicateKey (key : Bytes)
  | badSignature
  | cannotSign
  | key (fault : KeyFault)
  | notFound (bucket : String) (key : Bytes)
  | storage (fault : StorageFault)
  | serialization
deriving DecidableEq, Repr

namespace LogError

def message : LogError → String
  | .outOfRange fault => "Out of range: " ++ fault.message
  | .malformedRecord fault => "Malformed record: " ++ fault.message
  | .recordTooLarge size =>
    "Record of " ++ toString size ++ " bytes exceeds the 65535-byte leaf limit"
  | .invalidProof => "Invalid proof"
  | .duplicateKey k => "Duplicate key: " ++ Hex.encode k
  | .badSignature => "Bad signature"
  | .cannotSign => "Signer cannot sign"
  | .key fault => "Key error: " ++ fault.message
  | .notFound bucket k => "Not found: " ++ bucket ++ "/" ++ Utf8.lossy k
  | .storage fault => "Storage error: " ++ fault.message
  | .serialization => "Serialization error: malformed bytes"

/-- Whether an entry was simply absent. -/
def isNotFound : LogError → Bool
  | .notFound _ _ => true
  | _ => false

end LogError

end TransparencyLog
