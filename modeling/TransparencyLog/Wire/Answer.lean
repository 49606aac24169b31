import TransparencyLog.Api
import TransparencyLog.Wire.Message

/-!
# Answers as messages

The message that answers each call to a log, and the message that says why there is no answer.

* `LogCall.write`, `LogCall.read`: an answer as a message, and back;
* `Wire.errorMessage`, `Wire.errorText`: a reason as a message, and back.
-/

namespace TransparencyLog

/-- The data of the answer to a call. -/
def LogCall.toData {α : Type} : LogCall α → α → Data
  | .head, h => (Wire.HeadForm.ofHead h).toData
  | .consistency _ _, proof => (Wire.ProofForm.ofDigests proof).toData
  | .audit _ _, proof => (Wire.ProofForm.ofDigests proof).toData
  | .entries _ _, leaves => (Wire.EntriesForm.ofLeaves leaves).toData
  | .mapValue _ _, found => (Wire.MapValueForm.ofMapValue found).toData
  | .submit _, h => (Wire.HeadForm.ofHead h).toData

/-- The answer to a call in a message. -/
def LogCall.read {α : Type} : LogCall α → Bytes → Except Wire.Fault α
  | .head => Wire.readHead
  | .consistency _ _ => Wire.readProof
  | .audit _ _ => Wire.readProof
  | .entries _ _ => Wire.readLeaves
  | .mapValue _ _ => Wire.readMapValue
  | .submit _ => Wire.readHead

namespace Wire

def errorToData (text : String) : Data := .object [("error", .text text)]

def errorOfData? (d : Data) : Option String := do
  match ← d.fields? ["error"] with
  | [some text] => text.text?
  | _ => none

/-- The reason in a message; a text that is no message of that kind is the reason itself. -/
def errorText (message : Bytes) : String :=
  let text := Utf8.lossy message
  match (Json.parse? (Bytes.ofText text)).bind errorOfData? with
  | some reason => reason
  | none => text

/-- Data as the bytes of a message. -/
def bytesOfData (d : Data) : Bytes := Bytes.ofText (Json.write d)

end Wire

/-- The answer to a call as a message. -/
def LogCall.write {α : Type} (call : LogCall α) (answer : α) : Bytes :=
  Wire.bytesOfData (call.toData answer)

end TransparencyLog
