import TransparencyLog.Proofs.Data.Json
import TransparencyLog.Proofs.Hexadecimal
import TransparencyLog.Wire.Answer

/-!
# Forms of messages

A message is written as a form whose byte fields are texts. The text of a form is read back as that
form. A form stands for at most one value, and the forms of one value differ in nothing but the case of
their digits: with its letters in lower case, each is the form that the value is written in.

* `Wire.bytesOf_eq_ok_iff`, `Wire.digestOf_eq_ok_iff`, `Wire.digestsOf_eq_ok_iff`: single fields;
* `Wire.HeadForm.ofData?_toData` and the like, `Wire.parse_bytesOfData`: forms are read back;
* `Wire.HeadForm.lower`, `Wire.HeadForm.head_eq_ok_iff` and the like: the value of a form;
* `Wire.Faithful`: writing and reading undo each other;
* **`Wire.forms_faithful`**: so it is for heads, proofs, map values and batches.
-/

namespace TransparencyLog.Wire

/-! ## Fields -/

section Fields

variable {field : String}

theorem bytesOf_eq_ok_iff {text : String} {bytes : Bytes} :
    bytesOf field text = .ok bytes ↔ text.toLower = Hex.encode bytes := by
  rw [← Hex.decode_eq_ok_iff]
  cases h : Hex.decode text <;> simp [bytesOf, h]

theorem digestOf_eq_ok_iff {text : String} {digest : Digest} :
    digestOf field text = .ok digest ↔ text.toLower = digest.text := by
  rw [Digest.text, ← @bytesOf_eq_ok_iff field, digestOf]
  cases hbytes : bytesOf field text with
  | error fault => simp
  | ok bytes =>
    rw [Except.ok.injEq, ← Digest.ofBytes?_eq_some_iff]
    cases h : Digest.ofBytes? bytes <;> simp [h]

theorem digestsOf_eq_ok_iff {texts : List String} {digests : List Digest} :
    digestsOf field texts = .ok digests ↔ texts.map String.toLower = digests.map Digest.text := by
  rw [digestsOf, mapM_eq_ok_iff, ← List.forall₂_eq_eq_eq, List.forall₂_map_left_iff,
    List.forall₂_map_right_iff]
  simp only [digestOf_eq_ok_iff]

end Fields

theorem toLower_text (digest : Digest) : digest.text.toLower = digest.text :=
  Hex.toLower_encode digest.bytes

theorem map_toLower_text (digests : List Digest) :
    (digests.map Digest.text).map String.toLower = digests.map Digest.text := by
  rw [List.map_map]
  exact List.map_congr_left fun digest _ => toLower_text digest

theorem textsOfData?_textsToData (texts : List String) :
    textsOfData? (textsToData texts) = some texts := by
  have h : ∀ text : String, (Data.text text).text? = pure text := fun _ => rfl
  exact mapM_map_pure h texts

theorem isPlain_textsToData (texts : List String) : (textsToData texts).isPlain = true := by
  rw [textsToData, Data.isPlain, Data.arePlain_iff]
  intro d hd
  obtain ⟨text, -, rfl⟩ := List.mem_map.mp hd
  rfl

theorem natural?_toNat {bound n : Nat} (h : n < bound) :
    (Data.integer n).natural? bound = some n := if_pos h

/-! ## Data -/

section Forms

attribute [local simp] Data.fields? Data.object Data.named Data.atMostOnce Data.text Data.text?
  textsOfData?_textsToData

theorem HeadForm.ofData?_toData (form : HeadForm) : ofData? form.toData = some form := by
  simp [ofData?, toData, natural?_toNat form.treeSize.toNat_lt_size]

theorem HeadForm.isPlain_toData (form : HeadForm) : form.toData.isPlain = true := rfl

theorem ProofForm.ofData?_toData (form : ProofForm) : ofData? form.toData = some form := by
  simp [ofData?, toData]

theorem ProofForm.isPlain_toData (form : ProofForm) : form.toData.isPlain = true := by
  refine Data.isPlain_object fun field hfield => ?_
  rw [List.mem_singleton.mp hfield]
  exact isPlain_textsToData _

theorem EntriesForm.ofData?_toData (form : EntriesForm) : ofData? form.toData = some form := by
  simp [ofData?, toData]

theorem EntriesForm.isPlain_toData (form : EntriesForm) : form.toData.isPlain = true := by
  refine Data.isPlain_object fun field hfield => ?_
  rw [List.mem_singleton.mp hfield]
  exact isPlain_textsToData _

theorem MapValueForm.ofData?_toData (form : MapValueForm) : ofData? form.toData = some form := by
  obtain ⟨value, depth, bitmap, siblings⟩ := form
  have hdepth := natural?_toNat depth.toNat_lt_size
  cases value <;> simp [ofData?, toData, optionalText?, hdepth]

theorem MapValueForm.isPlain_toData (form : MapValueForm) : form.toData.isPlain = true := by
  obtain ⟨value, depth, bitmap, siblings⟩ := form
  refine Data.isPlain_object fun field hfield => ?_
  simp only [List.mem_cons, List.not_mem_nil, or_false] at hfield
  rcases hfield with rfl | rfl | rfl | rfl
  · cases value <;> rfl
  · rfl
  · rfl
  · exact isPlain_textsToData _

theorem SubmitForm.itemOfData?_itemToData (item : String × String) :
    itemOfData? (itemToData item) = pure item := by
  simp [itemOfData?, itemToData]

theorem SubmitForm.ofData?_toData (form : SubmitForm) : ofData? form.toData = some form := by
  simp [ofData?, toData, Data.list?, mapM_map_pure itemOfData?_itemToData]

theorem SubmitForm.isPlain_toData (form : SubmitForm) : form.toData.isPlain = true := by
  refine Data.isPlain_object fun field hfield => ?_
  rw [List.mem_singleton.mp hfield, Data.isPlain, Data.arePlain_iff]
  intro d hd
  obtain ⟨item, -, rfl⟩ := List.mem_map.mp hd
  rfl

end Forms

/-- A form is read back from its text. -/
theorem parse_bytesOfData {α : Type} {ofData? : Data → Option α} {d : Data} {form : α}
    (plain : d.isPlain = true) (h : ofData? d = some form) :
    parse ofData? (bytesOfData d) = .ok form := by
  simp only [parse, bytesOfData, Json.parse?_write plain, Option.bind_some, h]

/-- A message is read back if its form is. -/
theorem read_bytesOfData {α β : Type} {ofData? : Data → Option α} {value : α → Except Fault β}
    {d : Data} {form : α} (plain : d.isPlain = true) (h : ofData? d = some form) :
    read ofData? value (bytesOfData d) = value form := by
  rw [read, parse_bytesOfData plain h, ok_bind]

/-! ## Values -/

/-- The form with its letters in lower case. -/
def HeadForm.lower (form : HeadForm) : HeadForm :=
  ⟨form.treeSize, form.logRoot.toLower, form.mapRoot.toLower, form.signature.toLower⟩

theorem HeadForm.head_eq_ok_iff {form : HeadForm} {value : TreeHead} :
    form.head = .ok value ↔ ofHead value = form.lower := by
  simp only [head, bind_eq_ok_iff, digestOf_eq_ok_iff, bytesOf_eq_ok_iff, ofHead, lower, mk.injEq]
  constructor
  · rintro ⟨logRoot, hlog, mapRoot, hmap, signature, hsignature, h⟩
    cases h
    exact ⟨rfl, hlog.symm, hmap.symm, hsignature.symm⟩
  · rintro ⟨hsize, hlog, hmap, hsignature⟩
    refine ⟨_, hlog.symm, _, hmap.symm, _, hsignature.symm, ?_⟩
    rw [← hsize]
    rfl

theorem HeadForm.lower_ofHead (value : TreeHead) : (ofHead value).lower = ofHead value := by
  simp only [lower, ofHead, toLower_text, Hex.toLower_encode]

/-- The form with its letters in lower case. -/
def ProofForm.lower (form : ProofForm) : ProofForm := ⟨form.proof.map String.toLower⟩

theorem ProofForm.digests_eq_ok_iff {form : ProofForm} {value : List Digest} :
    form.digests = .ok value ↔ ofDigests value = form.lower := by
  rw [digests, digestsOf_eq_ok_iff, ofDigests, lower, mk.injEq, eq_comm]

theorem ProofForm.lower_ofDigests (value : List Digest) : (ofDigests value).lower = ofDigests value := by
  rw [ofDigests, lower, map_toLower_text]

/-- The form with its letters in lower case. -/
def EntriesForm.lower (form : EntriesForm) : EntriesForm := ⟨form.entries.map String.toLower⟩

theorem EntriesForm.leaves_eq_ok_iff {form : EntriesForm} {value : List Bytes} :
    form.leaves = .ok value ↔ ofLeaves value = form.lower := by
  rw [leaves, mapM_eq_ok_iff, ofLeaves, lower, mk.injEq, eq_comm, ← List.forall₂_eq_eq_eq,
    List.forall₂_map_left_iff, List.forall₂_map_right_iff]
  simp only [bytesOf_eq_ok_iff]

theorem EntriesForm.lower_ofLeaves (value : List Bytes) : (ofLeaves value).lower = ofLeaves value := by
  rw [ofLeaves, lower, List.map_map, mk.injEq]
  exact List.map_congr_left fun bytes _ => Hex.toLower_encode bytes

/-- The form with its letters in lower case. -/
def MapValueForm.lower (form : MapValueForm) : MapValueForm :=
  ⟨form.value.map String.toLower, form.depth, form.bitmap.toLower, form.siblings.map String.toLower⟩

/-- An optional text stands for bytes exactly if it is there when they are. -/
theorem optionalBytes_eq_ok_iff {field : String} {text : Option String} {bytes : Option Bytes} :
    text.mapM (bytesOf field) = .ok bytes ↔ bytes.map Hex.encode = text.map String.toLower := by
  cases text with
  | none => cases bytes <;> simp [pure, Except.pure]
  | some text =>
    have hmap : (some text).mapM (bytesOf field) = (bytesOf field text).map some := by
      rw [Option.mapM_some]
      cases bytesOf field text <;> rfl
    rw [hmap, map_eq_ok_iff, Option.map_some]
    simp only [bytesOf_eq_ok_iff]
    constructor
    · rintro ⟨bytes, hbytes, rfl⟩
      rw [Option.map_some, hbytes]
    · intro h
      obtain ⟨bytes, rfl, hbytes⟩ := Option.map_eq_some_iff.mp h
      exact ⟨bytes, hbytes.symm, rfl⟩

theorem MapValueForm.mapValue_eq_ok_iff {form : MapValueForm} {value : MapValue} :
    form.mapValue = .ok value ↔ ofMapValue value = form.lower := by
  simp only [mapValue, bind_eq_ok_iff, digestsOf_eq_ok_iff, bytesOf_eq_ok_iff,
    optionalBytes_eq_ok_iff, ofMapValue, lower, mk.injEq]
  constructor
  · rintro ⟨bytes, hbytes, bitmap, hbitmap, siblings, hsiblings, h⟩
    cases h
    exact ⟨hbytes, rfl, hbitmap.symm, hsiblings.symm⟩
  · rintro ⟨hbytes, hdepth, hbitmap, hsiblings⟩
    refine ⟨_, hbytes, _, hbitmap.symm, _, hsiblings.symm, ?_⟩
    rw [← hdepth]
    rfl

/-- The form with its letters in lower case. -/
def SubmitForm.lower (form : SubmitForm) : SubmitForm :=
  ⟨form.items.map fun item => (item.1.toLower, item.2.toLower)⟩

theorem SubmitForm.recordOf_eq_ok_iff {item : String × String} {record : Record} :
    recordOf item = .ok record ↔
      (item.1.toLower, item.2.toLower) = (Hex.encode record.key, Hex.encode record.value) := by
  simp only [recordOf, bind_eq_ok_iff, bytesOf_eq_ok_iff, Prod.mk.injEq]
  constructor
  · rintro ⟨key, hkey, value, hvalue, h⟩
    cases h
    exact ⟨hkey, hvalue⟩
  · rintro ⟨hkey, hvalue⟩
    exact ⟨_, hkey, _, hvalue, rfl⟩

theorem SubmitForm.records_eq_ok_iff {form : SubmitForm} {value : List Record} :
    form.records = .ok value ↔ ofRecords value = form.lower := by
  rw [records, mapM_eq_ok_iff, ofRecords, lower, mk.injEq, eq_comm, ← List.forall₂_eq_eq_eq,
    List.forall₂_map_left_iff, List.forall₂_map_right_iff]
  simp only [recordOf_eq_ok_iff]

theorem MapValueForm.lower_ofMapValue (value : MapValue) :
    (ofMapValue value).lower = ofMapValue value := by
  have hvalue : (value.value.map Hex.encode).map String.toLower = value.value.map Hex.encode := by
    cases value.value with
    | none => rfl
    | some bytes => exact congrArg some (Hex.toLower_encode bytes)
  simp only [lower, ofMapValue, hvalue, Hex.toLower_encode, map_toLower_text]

theorem SubmitForm.lower_ofRecords (value : List Record) : (ofRecords value).lower = ofRecords value := by
  rw [ofRecords, lower, List.map_map, mk.injEq]
  refine List.map_congr_left fun record _ => ?_
  rw [Function.comp_apply, Hex.toLower_encode, Hex.toLower_encode]

/-! ## Both ways -/

/-- Writing and reading undo each other. The text of a form is read as that form; the message of a value
is read as that value; and a form stands for a value exactly if the value is written in this form, apart
from the case of the letters. -/
structure Faithful {Form Value : Type} (ofValue : Value → Form) (value : Form → Except Fault Value)
    (lower : Form → Form) (toData : Form → Data) (ofData? : Data → Option Form) : Prop where
  parsed : ∀ form, parse ofData? (bytesOfData (toData form)) = .ok form
  read_back : ∀ a, read ofData? value (bytesOfData (toData (ofValue a))) = .ok a
  written_again : ∀ form a, value form = .ok a ↔ ofValue a = lower form

/-- It is enough that forms are read back from their data, and values from their forms. -/
theorem Faithful.of_forms {Form Value : Type} {ofValue : Value → Form}
    {value : Form → Except Fault Value} {lower : Form → Form} {toData : Form → Data}
    {ofData? : Data → Option Form} (plain : ∀ form, (toData form).isPlain = true)
    (same : ∀ form, ofData? (toData form) = some form)
    (stands : ∀ {form a}, value form = .ok a ↔ ofValue a = lower form)
    (lowered : ∀ a, lower (ofValue a) = ofValue a) :
    Faithful ofValue value lower toData ofData? where
  parsed form := parse_bytesOfData (plain form) (same form)
  read_back a := by
    rw [read_bytesOfData (plain _) (same _)]
    exact stands.mpr (lowered a).symm
  written_again _ _ := stands

theorem HeadForm.faithful : Faithful ofHead head lower toData ofData? :=
  .of_forms isPlain_toData ofData?_toData head_eq_ok_iff lower_ofHead

theorem ProofForm.faithful : Faithful ofDigests digests lower toData ofData? :=
  .of_forms isPlain_toData ofData?_toData digests_eq_ok_iff lower_ofDigests

theorem EntriesForm.faithful : Faithful ofLeaves leaves lower toData ofData? :=
  .of_forms isPlain_toData ofData?_toData leaves_eq_ok_iff lower_ofLeaves

theorem MapValueForm.faithful : Faithful ofMapValue mapValue lower toData ofData? :=
  .of_forms isPlain_toData ofData?_toData mapValue_eq_ok_iff lower_ofMapValue

theorem SubmitForm.faithful : Faithful ofRecords records lower toData ofData? :=
  .of_forms isPlain_toData ofData?_toData records_eq_ok_iff lower_ofRecords

/-- **Messages are faithful.** The text of any head, any proof, any answer of a map, be its value absent,
empty or any bytes, and any batch is read as what it was written for. The other way round, whatever form
stands for such a value is the one that the value is written in, apart from the case of its digits. -/
theorem forms_faithful :
    Faithful HeadForm.ofHead HeadForm.head HeadForm.lower HeadForm.toData HeadForm.ofData? ∧
      Faithful ProofForm.ofDigests ProofForm.digests ProofForm.lower ProofForm.toData
        ProofForm.ofData? ∧
      Faithful MapValueForm.ofMapValue MapValueForm.mapValue MapValueForm.lower MapValueForm.toData
        MapValueForm.ofData? ∧
      Faithful SubmitForm.ofRecords SubmitForm.records SubmitForm.lower SubmitForm.toData
        SubmitForm.ofData? :=
  ⟨HeadForm.faithful, ProofForm.faithful, MapValueForm.faithful, SubmitForm.faithful⟩

end TransparencyLog.Wire
