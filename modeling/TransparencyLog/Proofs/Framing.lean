import TransparencyLog.Proofs.Outcome
import TransparencyLog.Record

/-!
# Framing

Records and stored nodes are two fields, each behind its length. Fields that fit are written, and they are
read from exactly those bytes that are written for them; anything else is malformed.

* `Framing.field`, `Framing.pair`: the bytes of a field and of two;
* `Framing.encode_eq_ok_iff`, `Framing.encode_pair_eq_ok_iff`: which fields are written, and how;
* **`Framing.decodeFrom_eq_ok_iff`**, `Framing.decodePair_eq_ok_iff`: what is read is what was written;
* `Record.encode_eq`, `Record.of_encode`, `Record.decode_pair`, `Node.encode_make`, `Node.decode_pair`;
* `Record.field_lengths`: the fields of a record of permitted size fit.
-/

namespace TransparencyLog

/-- The bytes of a word are those of its number. -/
theorem Bytes.littleEndian_number (word : Bytes) : littleEndian word.length (number word) = word := by
  induction word with
  | nil => rfl
  | cons b rest ih =>
    have hb := b.toNat_lt
    have hlow : UInt8.ofNat (number (b :: rest)) = b := by
      refine UInt8.toNat.inj ?_
      rw [number, UInt8.toNat_ofNat']
      omega
    have hhigh : number (b :: rest) / 256 = number rest := by rw [number]; omega
    rw [List.length_cons, littleEndian, hlow, hhigh, ih]

namespace Framing

/-- One field behind its length. -/
def field (bytes : Bytes) : Bytes := Bytes.littleEndian 2 bytes.length ++ bytes

/-- Two fields, each behind its length. -/
def pair (first second : Bytes) : Bytes := field first ++ field second

theorem length_field (bytes : Bytes) : (field bytes).length = bytes.length + 2 := by
  rw [field, List.length_append, Bytes.length_littleEndian, Nat.add_comm]

theorem length_pair (first second : Bytes) :
    (pair first second).length = first.length + second.length + 4 := by
  rw [pair, List.length_append, length_field, length_field]
  omega

section Fields

variable {fields : List Bytes} {bytes : Bytes} {index count : Nat}

/-! ## Writing -/

theorem checkField_eq {bytes : Bytes} (h : bytes.length ≤ maxField) : checkField bytes = .ok () := by
  rw [checkField, if_neg (Nat.not_lt.mpr h)]

theorem length_le_of_checkField {bytes : Bytes} (h : checkField bytes = .ok ()) :
    bytes.length ≤ maxField := by
  rcases Nat.lt_or_ge maxField bytes.length with hlong | hfits
  · rw [checkField, if_pos hlong] at h
    cases h
  · exact hfits

theorem encode_cons_eq_ok_iff {f : Bytes} : encode (f :: fields) = .ok bytes ↔
    f.length ≤ maxField ∧ ∃ tail, encode fields = .ok tail ∧ bytes = field f ++ tail := by
  rw [encode, bind_eq_ok_iff]
  constructor
  · rintro ⟨_, hfits, h⟩
    obtain ⟨tail, htail, heq⟩ := bind_eq_ok_iff.mp h
    refine ⟨length_le_of_checkField hfits, tail, htail, ?_⟩
    rw [field, List.append_assoc]
    exact (Except.ok.inj heq).symm
  · rintro ⟨hfits, tail, htail, rfl⟩
    refine ⟨(), checkField_eq hfits, bind_eq_ok_iff.mpr ⟨tail, htail, ?_⟩⟩
    rw [field, List.append_assoc]
    rfl

/-- **Fields are written** one behind the other, if every one of them fits. -/
theorem encode_eq_ok_iff : encode fields = .ok bytes ↔
    (∀ f ∈ fields, f.length ≤ maxField) ∧ bytes = fields.flatMap field := by
  induction fields generalizing bytes with
  | nil => simp [encode, eq_comm]
  | cons f rest ih =>
    rw [encode_cons_eq_ok_iff, List.forall_mem_cons, List.flatMap_cons, and_assoc]
    refine and_congr_right fun _ => ⟨?_, ?_⟩
    · rintro ⟨tail, htail, rfl⟩
      obtain ⟨hrest, rfl⟩ := ih.mp htail
      exact ⟨hrest, rfl⟩
    · rintro ⟨hrest, rfl⟩
      exact ⟨_, ih.mpr ⟨hrest, rfl⟩, rfl⟩

/-- **Two fields are written** if both of them fit. -/
theorem encode_pair_eq_ok_iff {first second : Bytes} : encode [first, second] = .ok bytes ↔
    (first.length ≤ maxField ∧ second.length ≤ maxField) ∧ bytes = pair first second := by
  rw [encode_eq_ok_iff, List.forall_mem_cons, List.forall_mem_singleton, List.flatMap_cons,
    List.flatMap_singleton, pair]

theorem encode_pair {first second : Bytes} (h₁ : first.length ≤ maxField)
    (h₂ : second.length ≤ maxField) : encode [first, second] = .ok (pair first second) :=
  encode_pair_eq_ok_iff.mpr ⟨⟨h₁, h₂⟩, rfl⟩

/-! ## Reading -/

/-- A field at the front is read, and the fields behind it are read from the rest. -/
theorem decodeFrom_field (index count : Nat) {bytes : Bytes} (h : bytes.length ≤ maxField)
    (rest : Bytes) :
    decodeFrom index (count + 1) (field bytes ++ rest) =
      (decodeFrom (index + 1) count rest).map (bytes :: ·) := by
  have hnum : Bytes.number (Bytes.littleEndian 2 bytes.length) = bytes.length := by
    rw [Bytes.number_littleEndian]
    exact Nat.mod_eq_of_lt (Nat.lt_of_le_of_lt h (by decide))
  have hfits : ¬ (bytes ++ rest).length < bytes.length := by rw [List.length_append]; omega
  change decodeFrom index (count + 1) (UInt8.ofNat bytes.length :: UInt8.ofNat (bytes.length / 256) ::
    (bytes ++ rest)) = _
  change Bytes.number [UInt8.ofNat bytes.length, UInt8.ofNat (bytes.length / 256)] = _ at hnum
  rw [decodeFrom]
  simp only [hnum, if_neg hfits, List.drop_left, List.take_left]
  cases decodeFrom (index + 1) count rest <;> rfl

/-- What is read begins with a framed field, or there is a fault where that field should be. -/
theorem decodeFrom_cases (index count : Nat) (bytes : Bytes) :
    (∃ fault, decodeFrom index (count + 1) bytes = .error (.malformedRecord fault)) ∨
      ∃ f rest, f.length ≤ maxField ∧ bytes = field f ++ rest := by
  match bytes with
  | [] => exact Or.inl ⟨_, rfl⟩
  | [_] => exact Or.inl ⟨_, rfl⟩
  | low :: high :: rest =>
    have hword := Bytes.number_lt [low, high]
    have hmax : Nat.pow 256 2 = maxField + 1 := rfl
    rw [List.length_cons, List.length_singleton, hmax] at hword
    rcases Nat.lt_or_ge rest.length (Bytes.number [low, high]) with hshort | hlong
    · refine Or.inl ⟨.truncated index, ?_⟩
      rw [decodeFrom]
      exact if_pos hshort
    · have hlength : (rest.take (Bytes.number [low, high])).length = Bytes.number [low, high] :=
        List.length_take_of_le hlong
      refine Or.inr ⟨rest.take (Bytes.number [low, high]), rest.drop (Bytes.number [low, high]), ?_, ?_⟩
      · omega
      · rw [field, hlength, List.append_assoc, List.take_append_drop]
        exact congrArg (· ++ rest) (Bytes.littleEndian_number [low, high]).symm

/-- **Fields are read exactly from what is written for them.** -/
theorem decodeFrom_eq_ok_iff : decodeFrom index count bytes = .ok fields ↔
    fields.length = count ∧ encode fields = .ok bytes := by
  constructor
  · intro h
    induction count generalizing index bytes fields with
    | zero =>
      cases bytes with
      | nil => cases h; exact ⟨rfl, rfl⟩
      | cons b rest => cases h
    | succ count ih =>
      rcases decodeFrom_cases index count bytes with ⟨fault, herror⟩ | ⟨f, rest, hfits, rfl⟩
      · rw [herror] at h
        cases h
      · rw [decodeFrom_field index count hfits] at h
        obtain ⟨tail, htail, rfl⟩ := map_eq_ok_iff.mp h
        obtain ⟨rfl, hwritten⟩ := ih htail
        exact ⟨rfl, encode_cons_eq_ok_iff.mpr ⟨hfits, rest, hwritten, rfl⟩⟩
  · rintro ⟨rfl, h⟩
    obtain ⟨hfits, rfl⟩ := encode_eq_ok_iff.mp h
    clear h
    induction fields generalizing index with
    | nil => rfl
    | cons f rest ih =>
      rw [List.forall_mem_cons] at hfits
      rw [List.flatMap_cons, List.length_cons, decodeFrom_field _ _ hfits.1, ih hfits.2]
      rfl

/-- Whatever cannot be read is malformed. -/
theorem malformed_of_decodeFrom {e : LogError} (h : decodeFrom index count bytes = .error e) :
    ∃ fault, e = .malformedRecord fault := by
  induction count generalizing index bytes with
  | zero =>
    cases bytes with
    | nil => cases h
    | cons b rest => cases h; exact ⟨_, rfl⟩
  | succ count ih =>
    rcases decodeFrom_cases index count bytes with ⟨fault, herror⟩ | ⟨f, rest, hfits, rfl⟩
    · rw [herror] at h
      cases h
      exact ⟨fault, rfl⟩
    · rw [decodeFrom_field index count hfits] at h
      exact ih (map_eq_error_iff.mp h)

/-- A pair is read as two fields are. -/
theorem decodePair_cases (bytes : Bytes) :
    (∃ e, decodeFrom 0 2 bytes = .error e ∧ decodePair bytes = .error e) ∨
      ∃ first second, decodeFrom 0 2 bytes = .ok [first, second] ∧
        decodePair bytes = .ok (first, second) := by
  rw [decodePair]
  cases hread : decodeFrom 0 2 bytes with
  | error e => exact Or.inl ⟨e, rfl, rfl⟩
  | ok fields =>
    obtain ⟨first, second, rfl⟩ := List.length_eq_two.mp (decodeFrom_eq_ok_iff.mp hread).1
    exact Or.inr ⟨first, second, rfl, rfl⟩

theorem decodePair_eq_ok_iff {pair : Bytes × Bytes} : decodePair bytes = .ok pair ↔
    encode [pair.1, pair.2] = .ok bytes := by
  have hread := @decodeFrom_eq_ok_iff [pair.1, pair.2] bytes 0 2
  rcases decodePair_cases bytes with ⟨e, hfields, hpair⟩ | ⟨first, second, hfields, hpair⟩
  · simpa [hfields, hpair] using hread
  · simpa [hfields, hpair, Prod.ext_iff] using hread

theorem decodePair_pair {first second : Bytes} (h₁ : first.length ≤ maxField)
    (h₂ : second.length ≤ maxField) : decodePair (pair first second) = .ok (first, second) :=
  decodePair_eq_ok_iff.mpr (encode_pair h₁ h₂)

theorem malformed_of_decodePair {e : LogError} (h : decodePair bytes = .error e) :
    ∃ fault, e = .malformedRecord fault := by
  rcases decodePair_cases bytes with ⟨e', hfields, hpair⟩ | ⟨first, second, -, hpair⟩
  · rw [hpair] at h
    cases h
    exact malformed_of_decodeFrom hfields
  · rw [hpair] at h
    cases h

end Fields

end Framing

/-! ## Records and nodes -/

theorem Record.encode_eq {record : Record} (hkey : record.key.length ≤ Framing.maxField)
    (hvalue : record.value.length ≤ Framing.maxField) :
    record.encode = .ok (Framing.pair record.key record.value) :=
  Framing.encode_pair hkey hvalue

/-- A record that is written has fields that fit. -/
theorem Record.of_encode {record : Record} {data : Bytes} (h : record.encode = .ok data) :
    record.key.length ≤ Framing.maxField ∧ record.value.length ≤ Framing.maxField ∧
      data = Framing.pair record.key record.value := by
  obtain ⟨⟨hkey, hvalue⟩, hdata⟩ := Framing.encode_pair_eq_ok_iff.mp h
  exact ⟨hkey, hvalue, hdata⟩

/-- A record of permitted size has fields that fit, and so do its bytes. -/
theorem Record.field_lengths {record : Record}
    (h : record.key.length + record.value.length ≤ Record.maxPayload) :
    record.key.length ≤ Framing.maxField ∧ record.value.length ≤ Framing.maxField ∧
      (Framing.pair record.key record.value).length ≤ Framing.maxField := by
  have hmax : Record.maxPayload + 4 = Framing.maxField := rfl
  rw [Framing.length_pair]
  omega

theorem Record.decode_pair {key value : Bytes} (hkey : key.length ≤ Framing.maxField)
    (hvalue : value.length ≤ Framing.maxField) :
    Record.decode (Framing.pair key value) = .ok ⟨key, value⟩ := by
  rw [Record.decode, Framing.decodePair_pair hkey hvalue]
  rfl

theorem Node.decode_pair {digest value : Bytes} (hdigest : digest.length ≤ Framing.maxField)
    (hvalue : value.length ≤ Framing.maxField) :
    Node.decode (Framing.pair digest value) = .ok ⟨digest, value⟩ := by
  rw [Node.decode, Framing.decodePair_pair hdigest hvalue]
  rfl

theorem Node.encode_make {digest value : Bytes} (hdigest : digest.length ≤ Framing.maxField)
    (hvalue : value.length ≤ Framing.maxField) :
    (Node.make digest value >>= Node.encode) = .ok (Framing.pair digest value) := by
  have hmake : Node.make digest value = .ok ⟨digest, value⟩ := by
    rw [Node.make, Framing.checkField_eq hdigest, Framing.checkField_eq hvalue]
    rfl
  rw [hmake]
  exact Framing.encode_pair hdigest hvalue

end TransparencyLog
