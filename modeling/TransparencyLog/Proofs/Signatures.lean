import Mathlib.Algebra.Group.Int.Defs
import Mathlib.Algebra.Group.Nat.Defs
import TransparencyLog.Proofs.Auth
import TransparencyLog.Proofs.Http

/-!
# What a signature vouches for

A signature vouches for one time and one body. The time is signed as it is written in decimal, however the
request's header writes it, and a point stands between it and the body, which no decimal contains; so
different times or bodies make different messages, and their signatures agree only if the keyed hash does.

* `Auth.message_inj`: a message tells its time and its body;
* `Auth.distance`, `Auth.toNat_distance`: how far two times are apart, in 64 bits;
* `Auth.Vouched`, `Auth.verify_some_eq_ok_iff`: the requests that are let in;
* **`Auth.signatures_exact`**: which requests those are, and what a signature is good for.
-/

namespace TransparencyLog.Auth

/-! ## Messages -/

/-- The point is no byte of a written number. -/
theorem ne_of_mem_toString {n : Int} {b : UInt8} (h : b ∈ Bytes.ofText (toString n)) : b ≠ 46 := by
  obtain ⟨c, hc, hb⟩ := List.mem_flatMap.mp h
  rcases Decimal.mem_toString_int hc with rfl | hdigit
  · obtain rfl := List.mem_singleton.mp hb
    decide
  · have hbounds := Decimal.isDigit_bounds hdigit
    rw [utf8EncodeChar_of_lt (by omega), List.mem_singleton] at hb
    have hnumber : b.toNat = c.toNat := by rw [hb, UInt8.toNat_ofNat']; omega
    rintro rfl
    exact absurd (hnumber.symm ▸ hbounds.1) (by decide)

/-- **A message tells its time and its body.** -/
theorem message_inj {time time' : Int64} {body body' : Bytes} :
    message time body = message time' body' ↔ time = time' ∧ body = body' := by
  constructor
  · intro h
    have hcut := congrArg (Bytes.cut 46) h
    rw [message, message, List.append_assoc, List.append_assoc] at hcut
    have hpoint (rest : Bytes) : Bytes.ofText "." ++ rest = 46 :: rest := rfl
    rw [hpoint, hpoint, Bytes.cut_append fun b => ne_of_mem_toString,
      Bytes.cut_append fun b => ne_of_mem_toString] at hcut
    obtain ⟨htext, hbody⟩ := Prod.mk.inj hcut
    have htime := Decimal.int64?_toString time
    rw [Bytes.ofText_injective htext, Decimal.int64?_toString] at htime
    exact ⟨(Option.some.inj htime).symm, Option.some.inj hbody⟩
  · rintro ⟨rfl, rfl⟩
    rfl

/-! ## Times -/

/-- How far two times are apart, computed in words of 64 bits. -/
def distance (a b : Int64) : UInt64 :=
  if a < b then b.toUInt64 - a.toUInt64 else a.toUInt64 - b.toUInt64

/-- The upper half of the words are the negative times. -/
theorem toInt_cases (time : Int64) :
    time.toInt = time.toUInt64.toNat ∧ time.toUInt64.toNat < 2 ^ 63 ∨
      time.toInt = (time.toUInt64.toNat : Int) - 2 ^ 64 ∧ 2 ^ 63 ≤ time.toUInt64.toNat := by
  have hcond : time.toInt = if 2 * time.toUInt64.toNat < 2 ^ 64 then (time.toUInt64.toNat : Int)
      else time.toUInt64.toNat - 2 ^ 64 := BitVec.toInt_eq_toNat_cond time.toBitVec
  split at hcond
  · exact Or.inl ⟨hcond, by omega⟩
  · exact Or.inr ⟨hcond, by omega⟩

/-- The difference of two times is the one of their words, if it is not negative. -/
theorem toNat_sub_of_le {a b : Int64} (h : b.toInt ≤ a.toInt) :
    ((a.toUInt64 - b.toUInt64).toNat : Int) = a.toInt - b.toInt := by
  have ha := a.toUInt64.toNat_lt
  have hb := b.toUInt64.toNat_lt
  rw [UInt64.toNat_sub]
  rcases toInt_cases a with ⟨ha', _⟩ | ⟨ha', _⟩ <;> rcases toInt_cases b with ⟨hb', _⟩ | ⟨hb', _⟩ <;>
    omega

/-- **The distance of any two times fits** into a word and is computed without overflow. -/
theorem toNat_distance (a b : Int64) : (distance a b).toNat = (a.toInt - b.toInt).natAbs := by
  rw [distance]
  split
  · next h =>
    have hlt := Int64.lt_iff_toInt_lt.mp h
    have hsub := toNat_sub_of_le (Int.le_of_lt hlt)
    omega
  · next h =>
    have hle := Int64.le_iff_toInt_le.mp (Int64.not_lt.mp h)
    have hsub := toNat_sub_of_le hle
    omega

theorem isFresh_eq (now time : Int64) : isFresh now time = decide (distance now time ≤ 300) := by
  have hle : distance now time ≤ 300 ↔ (distance now time).toNat ≤ 300 := UInt64.le_iff_toNat_le
  rw [isFresh, ← toNat_distance]
  exact decide_eq_decide.mpr hle.symm

/-! ## Requests -/

/-- A request tells a time near the clock and shows, in digits of either case, the keyed hash of that time
and of its body. -/
structure Vouched (secret stamp given : String) (body : Bytes) (now time : Int64) : Prop where
  told : Decimal.Writes (Blank.trim stamp) time.toInt
  near : (now.toInt - time.toInt).natAbs ≤ 300
  signed : (Blank.trim given).toLower = Hex.encode (Hmac.code (Bytes.ofText secret) (message time body))

variable {secret stamp given : String} {body : Bytes} {now time : Int64}

/-- **The requests that are let in.** -/
theorem verify_some_eq_ok_iff : verify secret (some stamp) (some given) body now = .ok () ↔
    ∃ time, Vouched secret stamp given body now time := by
  rw [verify_eq_ok_iff]
  constructor
  · rintro ⟨time, htime, hsignature, hnear⟩
    obtain ⟨_, hstamp, htold⟩ := readTimestamp_eq_ok_iff.mp htime
    obtain ⟨_, hgiven, hdecoded⟩ := readSignature_eq_ok_iff.mp hsignature
    cases hstamp
    cases hgiven
    exact ⟨time, Decimal.int64?_eq_some_iff.mp htold, hnear, Hex.decode_eq_ok_iff.mp hdecoded⟩
  · rintro ⟨time, htold, hnear, hsigned⟩
    exact ⟨time, readTimestamp_eq_ok_iff.mpr ⟨_, rfl, Decimal.int64?_eq_some_iff.mpr htold⟩,
      readSignature_eq_ok_iff.mpr ⟨_, rfl, Hex.decode_eq_ok_iff.mpr hsigned⟩, hnear⟩

/-- The request that a signature was made for is let in, however its header writes the time. -/
theorem vouched_sign (told : Decimal.Writes (Blank.trim stamp) time.toInt)
    (near : (now.toInt - time.toInt).natAbs ≤ 300) :
    Vouched secret stamp (sign secret time body) body now time where
  told := told
  near := near
  signed := by
    rw [trim_sign]
    exact Hex.toLower_encode _

/-- **A signature is let in with its own time and body.** With any others the keyed hash would have to be
the same for two messages. -/
theorem eq_of_vouched {signedTime : Int64} {signedBody : Bytes}
    (h : Vouched secret stamp (sign secret signedTime signedBody) body now time) :
    time = signedTime ∧ body = signedBody ∨ message time body ≠ message signedTime signedBody ∧
      Hmac.code (Bytes.ofText secret) (message time body) =
        Hmac.code (Bytes.ofText secret) (message signedTime signedBody) := by
  by_cases hsame : message time body = message signedTime signedBody
  · exact Or.inl (message_inj.mp hsame)
  · have hdecoded := Hex.decode_eq_ok_iff.mpr h.signed
    rw [trim_sign, sign, Hex.decode_encode] at hdecoded
    exact Or.inr ⟨hsame, (Except.ok.inj hdecoded).symm⟩

/-- **Which requests are let in**, whatever their headers say and whatever the clock shows. They tell a time
within 300 seconds of the clock, counted without overflow, and show exactly the 32 bytes of the keyed hash
of that time in decimal, a point and the body. So the request that a signature was made for is let in as
long as it is near, and no other one with that signature unless the keyed hash is the same for both. -/
theorem signatures_exact (secret stamp given : String) (body : Bytes) (now : Int64) :
    (verify secret (some stamp) (some given) body now = .ok () ↔
      ∃ time, Vouched secret stamp given body now time) ∧
    (∀ time, isFresh now time = decide (distance now time ≤ 300) ∧
      (distance now time).toNat = (now.toInt - time.toInt).natAbs) ∧
    (∀ time, (Hmac.code (Bytes.ofText secret) (message time body)).length = 32 ∧
      message time body = Bytes.ofText (toString time.toInt) ++ Bytes.ofText "." ++ body) ∧
    (∀ time, Decimal.Writes (Blank.trim stamp) time.toInt → (now.toInt - time.toInt).natAbs ≤ 300 →
      verify secret (some stamp) (some (sign secret time body)) body now = .ok ()) ∧
    ∀ time signedTime signedBody, Decimal.Writes (Blank.trim stamp) time.toInt →
      verify secret (some stamp) (some (sign secret signedTime signedBody)) body now = .ok () →
      time = signedTime ∧ body = signedBody ∨ message time body ≠ message signedTime signedBody ∧
        Hmac.code (Bytes.ofText secret) (message time body) =
          Hmac.code (Bytes.ofText secret) (message signedTime signedBody) := by
  refine ⟨verify_some_eq_ok_iff, fun time => ⟨isFresh_eq now time, toNat_distance now time⟩,
    fun time => ⟨Hmac.length_code _ _, rfl⟩,
    fun time told near => verify_some_eq_ok_iff.mpr ⟨time, vouched_sign told near⟩, ?_⟩
  intro time signedTime signedBody told haccepted
  obtain ⟨time', hvouched⟩ := verify_some_eq_ok_iff.mp haccepted
  obtain rfl := Int64.toInt_inj.mp (told.unique hvouched.told)
  exact eq_of_vouched hvouched

end TransparencyLog.Auth
