import TransparencyLog.Auth
import TransparencyLog.Http.Message
import TransparencyLog.Proofs.Hexadecimal
import TransparencyLog.Proofs.Numerals

/-!
# Signed requests

A request is let in exactly if it tells a time near the clock and the keyed hash of that time and of its
own body. Whoever knows the secret can make such a request, whatever the body, and its headers survive
the way.

* **`Auth.verify_eq_ok_iff`**: which requests are let in;
* **`Auth.verify_sign`**: a signed request is let in as long as it is fresh;
* `Auth.isReadable_timestamp`, `Auth.isReadable_sign`: the headers are readable.
-/

namespace TransparencyLog.Auth

variable {secret : String} {timestamp signature : Option String} {body : Bytes} {now : Int64}

theorem readTimestamp_eq_ok_iff {time : Int64} : readTimestamp timestamp = .ok time ↔
    ∃ text, timestamp = some text ∧ Decimal.int64? (Blank.trim text) = some time := by
  cases timestamp with
  | none => simp [readTimestamp]
  | some text => cases h : Decimal.int64? (Blank.trim text) <;> simp [readTimestamp, h]

theorem readSignature_eq_ok_iff {given : Bytes} : readSignature signature = .ok given ↔
    ∃ text, signature = some text ∧ Hex.decode (Blank.trim text) = .ok given := by
  cases signature with
  | none => simp [readSignature]
  | some text => cases h : Hex.decode (Blank.trim text) <;> simp [readSignature, h]

/-- **The requests that are let in** tell a time near the clock and the keyed hash of that time and of
the body. -/
theorem verify_eq_ok_iff : verify secret timestamp signature body now = .ok () ↔
    ∃ time : Int64, readTimestamp timestamp = .ok time ∧
      readSignature signature = .ok (mac secret time body) ∧
      (now.toInt - time.toInt).natAbs ≤ maxSkew := by
  cases htime : readTimestamp timestamp with
  | error e =>
    have hrefused : verify secret timestamp signature body now = .error e := by
      rw [verify, htime]
      rfl
    simp [hrefused]
  | ok time =>
    cases hsignature : readSignature signature with
    | error e =>
      have hrefused : verify secret timestamp signature body now = .error e := by
        rw [verify, htime, hsignature]
        rfl
      simp [hrefused]
    | ok given =>
      have hchecked : verify secret timestamp signature body now =
          if !isFresh now time then .error .stale
          else if given ≠ mac secret time body then .error .mismatch else .ok () := by
        rw [verify, htime, hsignature]
        rfl
      rw [hchecked]
      by_cases hfresh : (now.toInt - time.toInt).natAbs ≤ maxSkew
      · by_cases hmac : given = mac secret time body <;> simp [isFresh, hfresh, hmac]
      · simp [isFresh, hfresh]

/-! ## Making requests -/

theorem printable_timestamp {c : Char} (h : c ∈ (toString now.toInt).toList) :
    Blank.isBlank c = false ∧ (' ' ≤ c ∧ c ≤ '~') := by
  have hall : ∀ n : Fin 10, Blank.isBlank (Char.ofNat (48 + n.val)) = false ∧
      ' ' ≤ Char.ofNat (48 + n.val) ∧ Char.ofNat (48 + n.val) ≤ '~' := by decide
  rcases Decimal.mem_toString_int h with rfl | hdigit
  · decide
  · have hbounds := Decimal.isDigit_bounds hdigit
    have hc := hall ⟨c.toNat - 48, by omega⟩
    rwa [show 48 + (c.toNat - 48) = c.toNat by omega, Char.ofNat_toNat] at hc

theorem printable_sign {bytes : Bytes} {c : Char} (h : c ∈ (Hex.encode bytes).toList) :
    Blank.isBlank c = false ∧ (' ' ≤ c ∧ c ≤ '~') := by
  have hall : ∀ n : Fin 16, Blank.isBlank (Hex.digit n.val) = false ∧
      ' ' ≤ Hex.digit n.val ∧ Hex.digit n.val ≤ '~' := by decide
  obtain ⟨n, rfl⟩ := Hex.mem_encode h
  exact hall n

theorem trim_sign (secret : String) (time : Int64) (body : Bytes) :
    Blank.trim (sign secret time body) = sign secret time body :=
  Blank.trim_eq_self fun _ hc => (printable_sign hc).1

/-- **A signed request is let in** as long as it is fresh, whatever its body. -/
theorem verify_sign {time : Int64} (fresh : (now.toInt - time.toInt).natAbs ≤ maxSkew)
    (secret : String) (body : Bytes) :
    verify secret (some (toString time.toInt)) (some (sign secret time body)) body now = .ok () := by
  refine verify_eq_ok_iff.mpr ⟨time, ?_, ?_, fresh⟩
  · refine readTimestamp_eq_ok_iff.mpr ⟨_, rfl, ?_⟩
    rw [Blank.trim_eq_self fun c hc => (printable_timestamp hc).1, Decimal.int64?_toString]
  · refine readSignature_eq_ok_iff.mpr ⟨_, rfl, ?_⟩
    rw [trim_sign, sign, Hex.decode_encode]

theorem isReadable_timestamp (now : Int64) : Http.isReadable (toString now.toInt) = true := by
  refine List.all_eq_true.mpr fun c hc => ?_
  simp [(printable_timestamp hc).2]

theorem isReadable_sign (secret : String) (now : Int64) (body : Bytes) :
    Http.isReadable (sign secret now body) = true := by
  refine List.all_eq_true.mpr fun c hc => ?_
  simp [(printable_sign hc).2]

end TransparencyLog.Auth
