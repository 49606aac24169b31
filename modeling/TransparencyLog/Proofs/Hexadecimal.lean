import TransparencyLog.Proofs.Outcome
import TransparencyLog.Proofs.Text
import TransparencyLog.Text.Hex

/-!
# Hexadecimal texts

Digits are written in lower case and read in either. So a text stands for bytes exactly if it becomes
their own text once its letters are in lower case.

* `Hex.value?_eq_some_iff`, `Hex.values_eq_ok_iff`: the digits, one by one and in a row;
* `Hex.pairUp_halves`, `Hex.halves_pairUp`: two by two they make up bytes;
* **`Hex.decode_eq_ok_iff`**: the texts that stand for some bytes; **`Hex.decode_encode`**.
-/

namespace TransparencyLog

namespace Hex

/-! ## Digits -/

theorem toLower_of_le {c : Char} (h : 128 ≤ c.toNat) : c.toLower = c := by
  have hnot : ¬ (c.val ≥ 'A'.val ∧ c.val ≤ 'Z'.val) := by
    rintro ⟨-, hle⟩
    have : c.toNat ≤ 90 := UInt32.le_iff_toNat_le.mp hle
    omega
  exact dif_neg hnot

theorem toList_toLower (text : String) : text.toLower.toList = text.toList.map Char.toLower :=
  String.toList_map

theorem digit_lt {v : Nat} (h : v < 16) : (digit v).toNat < 128 := by
  have hall : ∀ v : Fin 16, (digit v.val).toNat < 128 := by decide
  exact hall ⟨v, h⟩

/-- The byte of a character has a value exactly if the character is the digit of that number, apart from
its case. -/
theorem value?_eq_some_iff {c : Char} (hc : c.toNat < 128) {v : Nat} :
    value? (UInt8.ofNat c.toNat) = some v ↔ v < 16 ∧ c.toLower = digit v := by
  have hvalues : ∀ n : Fin 128, ∀ v : Fin 16,
      value? (UInt8.ofNat n.val) = some v.val ↔ (Char.ofNat n.val).toLower = digit v.val := by
    decide +kernel
  have hbound : ∀ n : Fin 128, (value? (UInt8.ofNat n.val)).all (· < 16) = true := by decide
  have hchar := hvalues ⟨c.toNat, hc⟩
  rw [Char.ofNat_toNat] at hchar
  constructor
  · intro h
    have hv := hbound ⟨c.toNat, hc⟩
    rw [h, Option.all_some, decide_eq_true_eq] at hv
    exact ⟨hv, (hchar ⟨v, hv⟩).mp h⟩
  · rintro ⟨hv, h⟩
    exact (hchar ⟨v, hv⟩).mpr h

theorem valueAt_eq_ok_iff {b : UInt8} {position v : Nat} :
    valueAt b position = .ok v ↔ value? b = some v := by
  cases h : value? b <;> simp [valueAt, h]

/-- No byte of a character beyond the first 128 has a value. -/
theorem value?_of_le {b : UInt8} (h : 128 ≤ b.toNat) : value? b = none := by
  simp only [value?]
  rw [if_neg (by omega), if_neg (by omega), if_neg (by omega)]

/-- **Characters have values in a row** exactly if they are the digits of those numbers, apart from their
case. -/
theorem values_eq_ok_iff {cs : List Char} {start : Nat} {vs : List Nat} :
    ((cs.flatMap String.utf8EncodeChar).zipIdx start).mapM (fun d => valueAt d.1 d.2) = .ok vs ↔
      (∀ v ∈ vs, v < 16) ∧ cs.map Char.toLower = vs.map digit := by
  simp only [mapM_eq_ok_iff, valueAt_eq_ok_iff]
  induction cs generalizing start vs with
  | nil => cases vs <;> simp
  | cons c cs ih =>
    rw [List.flatMap_cons, List.map_cons]
    rcases Nat.lt_or_ge c.toNat 128 with hascii | hother
    · rw [utf8EncodeChar_of_lt hascii, List.singleton_append, List.zipIdx_cons]
      cases vs with
      | nil => simp
      | cons v vs =>
        rw [List.forall₂_cons, ih, value?_eq_some_iff hascii, List.forall_mem_cons, List.map_cons,
          List.cons.injEq]
        exact and_and_and_comm
    · have hsize := c.utf8Size_pos
      rw [← String.length_utf8EncodeChar] at hsize
      obtain ⟨b, more, hbytes⟩ := List.exists_cons_of_length_pos hsize
      have hvalue : value? b = none := by
        refine value?_of_le (le_of_mem_utf8EncodeChar hother ?_)
        rw [hbytes]
        exact List.mem_cons_self
      rw [hbytes, List.cons_append, List.zipIdx_cons, toLower_of_le hother]
      cases vs with
      | nil => simp
      | cons v vs =>
        rw [List.forall₂_cons, hvalue, List.forall_mem_cons, List.map_cons, List.cons.injEq]
        refine iff_of_false (fun h => by cases h.1) fun h => ?_
        have hdigit := digit_lt h.1.1
        rw [← h.2.1] at hdigit
        omega

/-! ## Bytes -/

/-- The values of the two digits of each byte. -/
def halves (bytes : Bytes) : List Nat := bytes.flatMap fun b => [b.toNat / 16, b.toNat % 16]

theorem digits_eq (bytes : Bytes) : digits bytes = (halves bytes).map digit := by
  rw [digits, halves, List.map_flatMap]
  rfl

theorem lt_of_mem_halves {bytes : Bytes} {v : Nat} (h : v ∈ halves bytes) : v < 16 := by
  obtain ⟨b, -, hv⟩ := List.mem_flatMap.mp h
  have hb := b.toNat_lt
  simp only [List.mem_cons, List.not_mem_nil, or_false] at hv
  rcases hv with rfl | rfl <;> omega

theorem length_halves (bytes : Bytes) : (halves bytes).length = 2 * bytes.length := by
  simp [halves, Nat.mul_comm]

theorem pairUp_halves (bytes : Bytes) : pairUp (halves bytes) = bytes := by
  induction bytes with
  | nil => rfl
  | cons b bytes ih =>
    have hb : 16 * (b.toNat / 16) + b.toNat % 16 = b.toNat := Nat.div_add_mod _ _
    simp only [halves, List.flatMap_cons, List.cons_append, List.nil_append, pairUp, hb,
      UInt8.ofNat_toNat]
    rw [← halves, ih]

theorem halves_pairUp {vs : List Nat} (hvs : ∀ v ∈ vs, v < 16) (heven : vs.length % 2 = 0) :
    halves (pairUp vs) = vs := by
  fun_induction pairUp vs with
  | case1 high low rest ih =>
    have hhigh := hvs high (by simp)
    have hlow := hvs low (by simp)
    have hbyte : (UInt8.ofNat (16 * high + low)).toNat = 16 * high + low := by
      rw [UInt8.toNat_ofNat']
      omega
    rw [List.length_cons, List.length_cons] at heven
    have hrest := ih (fun v hv => hvs v (by simp [hv])) (by omega)
    rw [halves, List.flatMap_cons, ← halves, hrest, hbyte]
    have hdiv : (16 * high + low) / 16 = high := by omega
    have hmod : (16 * high + low) % 16 = low := by omega
    rw [hdiv, hmod]
    rfl
  | case2 vs hshort =>
    match vs, heven, hshort with
    | [], _, _ => rfl
    | high :: low :: rest, _, hshort => exact absurd rfl (hshort high low rest)

/-- **A text stands for some bytes** exactly if, with its letters in lower case, it is their text. -/
theorem decode_eq_ok_iff {text : String} {bytes : Bytes} :
    decode text = .ok bytes ↔ text.toLower = encode bytes := by
  have hread {vs : List Nat} : values (Bytes.ofText text) = .ok vs ↔
      (∀ v ∈ vs, v < 16) ∧ text.toList.map Char.toLower = vs.map digit := values_eq_ok_iff
  have hlength {vs : List Nat} (h : values (Bytes.ofText text) = .ok vs) :
      (Bytes.ofText text).length = vs.length := by
    rw [← (mapM_eq_ok_iff.mp h).length_eq, List.length_zipIdx]
  have hlower : text.toLower = encode bytes ↔ text.toList.map Char.toLower = (halves bytes).map digit := by
    rw [← String.toList_inj, toList_toLower, encode, String.toList_ofList, digits_eq]
  rw [hlower, decode]
  constructor
  · intro h
    split at h
    · cases h
    · next heven =>
      obtain ⟨vs, hvalues, rfl⟩ := map_eq_ok_iff.mp h
      obtain ⟨hbound, hchars⟩ := hread.mp hvalues
      rwa [halves_pairUp hbound (by rw [← hlength hvalues]; omega)]
  · intro h
    have hvalues := hread.mpr ⟨fun v => lt_of_mem_halves, h⟩
    have heven := hlength hvalues
    rw [length_halves] at heven
    rw [if_neg (by omega), hvalues]
    exact congrArg Except.ok (pairUp_halves bytes)

/-! ## Written bytes -/

/-- Written bytes consist of the digits. -/
theorem mem_encode {bytes : Bytes} {c : Char} (h : c ∈ (encode bytes).toList) :
    ∃ n : Fin 16, c = digit n.val := by
  rw [encode, String.toList_ofList, digits_eq] at h
  obtain ⟨v, hv, rfl⟩ := List.mem_map.mp h
  exact ⟨⟨v, lt_of_mem_halves hv⟩, rfl⟩

theorem toLower_encode (bytes : Bytes) : (encode bytes).toLower = encode bytes := by
  have hlower : ∀ n : Fin 16, (digit n.val).toLower = digit n.val := by decide
  refine String.toList_inj.mp ?_
  rw [toList_toLower]
  refine (List.map_congr_left fun c hc => ?_).trans (List.map_id _)
  obtain ⟨n, rfl⟩ := mem_encode hc
  exact hlower n

/-- **Bytes are read back.** -/
theorem decode_encode (bytes : Bytes) : decode (encode bytes) = .ok bytes :=
  decode_eq_ok_iff.mpr (toLower_encode bytes)

end Hex

end TransparencyLog
