import TransparencyLog.Data.Json
import TransparencyLog.Digest

/-!
# Bytes in messages

Messages carry bytes and digests as hexadecimal text. A field that is no such text, or is not as
long as a digest, is named in the fault.

* `Wire.Fault`, `Wire.Fault.message`;
* `Wire.bytesOf`, `Wire.digestOf`, `Wire.digestsOf`: reading fields.
-/

namespace TransparencyLog.Wire

/-- Why a message cannot be read: it is no message of its kind, or a field is not what it should
be. -/
inductive Fault
  | form
  | hex (field : String)
  | length (field : String)
deriving DecidableEq, Repr

def Fault.message : Fault → String
  | .form => "malformed message"
  | .hex field => "invalid hex in " ++ field
  | .length field => field ++ " must be 32 bytes"

def bytesOf (field text : String) : Except Fault Bytes :=
  match Hex.decode text with
  | .ok bytes => .ok bytes
  | .error _ => .error (.hex field)

def digestOf (field text : String) : Except Fault Digest :=
  match bytesOf field text with
  | .error fault => .error fault
  | .ok bytes =>
    match Digest.ofBytes? bytes with
    | some digest => .ok digest
    | none => .error (.length field)

/-- The digests in a field, in order. -/
def digestsOf (field : String) (texts : List String) : Except Fault (List Digest) :=
  texts.mapM (digestOf field)

/-- A list of texts as data. -/
def textsToData (texts : List String) : Data := .list (texts.map Data.text)

def textsOfData? (d : Data) : Option (List String) := do (← d.list?).mapM Data.text?

end TransparencyLog.Wire
