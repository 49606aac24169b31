import TransparencyLog.Proofs.Forms

/-!
# Messages are read back

Each message is written as a line of text and read by the other side with code of its own. Heads,
proofs, leaves, map values, batches and reasons all come back as they were.

* **`LogCall.read_write`**: the answer to a call is read back, for every call;
* **`Wire.readBatch_ofRecords`**, **`Wire.errorText_errorToData`**: so are batches and reasons.
-/

namespace TransparencyLog

namespace Wire

theorem bytesOf_encode (field : String) (bytes : Bytes) :
    bytesOf field (Hex.encode bytes) = .ok bytes :=
  bytesOf_eq_ok_iff.mpr (Hex.toLower_encode bytes)

theorem digestOf_text (field : String) (digest : Digest) : digestOf field digest.text = .ok digest :=
  digestOf_eq_ok_iff.mpr (toLower_text digest)

/-- **A batch is read back.** -/
theorem readBatch_ofRecords (items : List Record) :
    readBatch (bytesOfData (SubmitForm.ofRecords items).toData) = .ok items :=
  SubmitForm.faithful.read_back items

/-- **A reason is read back**, whatever it says. -/
theorem errorText_errorToData (text : String) : errorText (bytesOfData (errorToData text)) = text := by
  have hreason : errorOfData? (errorToData text) = some text := by
    simp [errorOfData?, errorToData, Data.fields?, Data.object, Data.named, Data.atMostOnce,
      Data.text, Data.text?]
  have plain : (errorToData text).isPlain = true := rfl
  simp only [errorText, bytesOfData, Utf8.lossy_ofText, Json.parse?_write plain, Option.bind_some,
    hreason]

end Wire

/-- **The answer to a call is read back**, for every call and every answer. -/
theorem LogCall.read_write {α : Type} (call : LogCall α) (answer : α) :
    call.read (call.write answer) = .ok answer := by
  cases call with
  | head => exact Wire.HeadForm.faithful.read_back answer
  | consistency => exact Wire.ProofForm.faithful.read_back answer
  | audit => exact Wire.ProofForm.faithful.read_back answer
  | entries => exact Wire.EntriesForm.faithful.read_back answer
  | mapValue => exact Wire.MapValueForm.faithful.read_back answer
  | submit => exact Wire.HeadForm.faithful.read_back answer

end TransparencyLog
