import Mathlib.Algebra.Group.Nat.Defs
import TransparencyLog.Http.Percent
import TransparencyLog.Proofs.Text

/-!
# What is read tells what was there

Texts and escapes are read back as they were written. Here it is the other way round. A text is read from
its own bytes and from no others, and reading escapes keeps the length only of what has none.

* `Utf8.Begins`: bytes that have begun a character; `Utf8.exists_of_scanFrom`: what is read without a
  fault was written so;
* **`Utf8.decode?_eq_some_iff`**: a text is read from its own bytes and from no others;
* `Percent.length_decode_le`, `Percent.decode_eq_self`: reading escapes makes bytes fewer, or leaves them;
* **`Percent.decode_encode_of_kept`**: escaping what may not stand leaves the escapes that are there.
-/

namespace TransparencyLog

namespace Utf8

/-! ## Characters -/

/-- The last `due` continuation bytes of a character. -/
def continuation (v : Nat) : Nat → Bytes
  | 0 => []
  | due + 1 => UInt8.ofNat (v / 64 ^ due % 0x40 + 0x80) :: continuation v due

/-- The bytes `before` have begun a character: every number with the bits of these bytes, and with a next
byte in its range, is one whose bytes they are. -/
structure Begins (before : Bytes) (p : Pending) : Prop where
  due : 0 < p.due
  low : 0x80 ≤ p.low.toNat
  high : p.high.toNat ≤ 0xBF
  ends : ∀ v, v / 64 ^ p.due = p.bits → p.low.toNat ≤ v / 64 ^ (p.due - 1) % 0x40 + 0x80 →
    v / 64 ^ (p.due - 1) % 0x40 + 0x80 ≤ p.high.toNat →
    String.utf8EncodeChar (Char.ofNat v) = before ++ continuation v p.due

/-- What has been read before: nothing, or the beginning of a character. -/
def Begun (before : Bytes) : Option Pending → Prop
  | none => before = []
  | some p => Begins before p

theorem utf8EncodeChar_ofNat {v : Nat} (h : v.isValidChar) : String.utf8EncodeChar (Char.ofNat v) =
    if v ≤ 0x7f then [UInt8.ofNat v]
    else if v ≤ 0x7ff then UInt8.ofNat (v / 64 % 0x20 + 0xc0) :: continuation v 1
    else if v ≤ 0xffff then UInt8.ofNat (v / 4096 % 0x10 + 0xe0) :: continuation v 2
    else UInt8.ofNat (v / 262144 % 0x08 + 0xf0) :: continuation v 3 := by
  have hv : (Char.ofNat v).val.toNat = v := by
    rw [Char.ofNat, dif_pos h]
    rfl
  have hsquare : v / 64 ^ 2 = v / 4096 := rfl
  simp only [String.utf8EncodeChar, hv, continuation, hsquare, Nat.pow_zero, Nat.div_one, Nat.pow_one]

section Begins

variable {b : UInt8} {bits : Nat} {low high : UInt8}

theorem ofNat_eq_of_toNat {n : Nat} (h : b.toNat = n) : UInt8.ofNat n = b := by
  rw [← h, UInt8.ofNat_toNat]

theorem begins_two (hb : b.toNat = bits + 0xc0) (hfirst : 2 ≤ bits) (hbits : bits < 0x20) :
    Begins [b] ⟨bits, 1, 0x80, 0xBF⟩ where
  due := Nat.one_pos
  low := Nat.le_refl _
  high := Nat.le_refl _
  ends v hv _ _ := by
    have hv : v / 64 = bits := hv
    rw [utf8EncodeChar_ofNat (Or.inl (by omega)), if_neg (by omega), if_pos (by omega),
      ofNat_eq_of_toNat (b := b) (by omega)]
    rfl

/-- The second of three bytes has a range that leaves out the surrogates, and what two bytes can say. -/
theorem begins_three (hb : b.toNat = bits + 0xe0) (hbits : bits < 0x10) (hlow : 0x80 ≤ low.toNat)
    (hhigh : high.toNat ≤ 0xBF) (hfirst : bits = 0 → 0xA0 ≤ low.toNat)
    (hsurrogate : bits = 0xD → high.toNat ≤ 0x9F) : Begins [b] ⟨bits, 2, low, high⟩ where
  due := Nat.two_pos
  low := hlow
  high := hhigh
  ends v hv hnext hnext' := by
    have hv : v / 4096 = bits := hv
    have hnext : low.toNat ≤ v / 64 % 0x40 + 0x80 := hnext
    have hnext' : v / 64 % 0x40 + 0x80 ≤ high.toNat := hnext'
    have hvalid : v.isValidChar := by
      change v < 0xD800 ∨ 0xDFFF < v ∧ v < 0x110000
      omega
    rw [utf8EncodeChar_ofNat hvalid, if_neg (by omega), if_neg (by omega), if_pos (by omega),
      ofNat_eq_of_toNat (b := b) (by omega)]
    rfl

theorem begins_four (hb : b.toNat = bits + 0xf0) (hbits : bits ≤ 4) (hlow : 0x80 ≤ low.toNat)
    (hhigh : high.toNat ≤ 0xBF) (hfirst : bits = 0 → 0x90 ≤ low.toNat)
    (hlast : bits = 4 → high.toNat ≤ 0x8F) : Begins [b] ⟨bits, 3, low, high⟩ where
  due := Nat.succ_pos 2
  low := hlow
  high := hhigh
  ends v hv hnext hnext' := by
    have hv : v / 262144 = bits := hv
    have hnext : low.toNat ≤ v / 4096 % 0x40 + 0x80 := hnext
    have hnext' : v / 4096 % 0x40 + 0x80 ≤ high.toNat := hnext'
    have hvalid : v.isValidChar := by
      change v < 0xD800 ∨ 0xDFFF < v ∧ v < 0x110000
      omega
    rw [utf8EncodeChar_ofNat hvalid, if_neg (by omega), if_neg (by omega), if_neg (by omega),
      ofNat_eq_of_toNat (b := b) (by omega)]
    rfl

/-- A byte that opens a longer character begins it. -/
theorem begins_of_opening {p : Pending} (h : opening b = .begun p) : Begins [b] p := by
  simp only [opening] at h
  split at h
  · cases h
  split at h
  · cases h
  split at h
  · cases h
    exact begins_two (by omega) (by omega) (by omega)
  split at h
  · cases h
    exact begins_three (by omega) (by decide) (by decide) (by decide) (by decide) (by decide)
  split at h
  · cases h
    exact begins_three (by omega) (by decide) (by decide) (by decide) (by decide) (by decide)
  split at h
  · cases h
    exact begins_three (by omega) (by omega) (by decide) (by decide) (by omega) (by omega)
  split at h
  · cases h
    exact begins_four (by omega) (by decide) (by decide) (by decide) (by decide) (by decide)
  split at h
  · cases h
    exact begins_four (by omega) (by omega) (by decide) (by decide) (by omega) (by omega)
  split at h
  · cases h
    exact begins_four (by omega) (by decide) (by decide) (by decide) (by decide) (by decide)
  · cases h

theorem opening_eq_whole {c : Char} (h : opening b = .whole c) : String.utf8EncodeChar c = [b] := by
  simp only [opening] at h
  split at h
  · cases h
    rw [utf8EncodeChar_ofNat (Or.inl (by omega)), if_pos (by omega), UInt8.ofNat_toNat]
  · repeat' split at h
    all_goals cases h

/-- A byte in its range is the next one of every number that has its bits. -/
theorem Begins.next {before : Bytes} {p : Pending} (h : Begins before p) (hlow : p.low.toNat ≤ b.toNat)
    (hhigh : b.toNat ≤ p.high.toNat) {v : Nat}
    (hv : v / 64 ^ (p.due - 1) = p.bits * 0x40 + b.toNat % 0x40) :
    String.utf8EncodeChar (Char.ofNat v) = before ++ [b] ++ continuation v (p.due - 1) := by
  obtain ⟨due, hdue⟩ : ∃ due, p.due = due + 1 := Nat.exists_eq_succ_of_ne_zero h.due.ne'
  have hlow' := h.low
  have hhigh' := h.high
  have hbyte : b.toNat = v / 64 ^ (p.due - 1) % 0x40 + 0x80 := by omega
  have hbits : v / 64 ^ p.due = p.bits := by
    rw [hdue, Nat.add_sub_cancel] at hv
    rw [hdue, Nat.pow_succ, ← Nat.div_div_eq_div_mul]
    omega
  rw [h.ends v hbits (by omega) (by omega), List.append_assoc]
  rw [hdue, Nat.add_sub_cancel] at hbyte
  rw [hdue, continuation, ofNat_eq_of_toNat hbyte]
  rfl

/-- The next byte of a character is read. -/
theorem Begins.continued {before : Bytes} {p : Pending} (h : Begins before p)
    (hlow : p.low.toNat ≤ b.toNat) (hhigh : b.toNat ≤ p.high.toNat) (hdue : 1 < p.due) :
    Begins (before ++ [b]) ⟨p.bits * 0x40 + b.toNat % 0x40, p.due - 1, 0x80, 0xBF⟩ where
  due := Nat.sub_pos_of_lt hdue
  low := Nat.le_refl _
  high := Nat.le_refl _
  ends _ hv _ _ := h.next hlow hhigh hv

/-- The last byte of a character is read. -/
theorem Begins.ended {before : Bytes} {p : Pending} (h : Begins before p) (hlow : p.low.toNat ≤ b.toNat)
    (hhigh : b.toNat ≤ p.high.toNat) (hdue : p.due ≤ 1) :
    String.utf8EncodeChar (Char.ofNat (p.bits * 0x40 + b.toNat % 0x40)) = before ++ [b] := by
  have hone : p.due - 1 = 0 := by omega
  have hlast := h.next hlow hhigh (v := p.bits * 0x40 + b.toNat % 0x40)
    (by rw [hone, Nat.pow_zero, Nat.div_one])
  rw [hlast, hone, continuation, List.append_nil]

end Begins

/-! ## Texts -/

/-- A byte that does not continue a character ends it with a fault. -/
theorem scanFrom_refused {p : Pending} {b : UInt8} (h : ¬(p.low.toNat ≤ b.toNat ∧ b.toNat ≤ p.high.toNat))
    (rest : Bytes) (out : List (Option Char)) :
    scanFrom (some p) (b :: rest) out = scanFrom none (b :: rest) (none :: out) := by
  have hfilter : (some p).filter (fun p => p.low ≤ b && b ≤ p.high) = none := by
    simpa [Option.filter, UInt8.le_iff_toNat_le] using h
  rw [scanFrom_opening, scanFrom, hfilter]
  rfl

/-- What has been read stays. -/
theorem subset_scanFrom (pending : Option Pending) (bytes : Bytes) (out : List (Option Char)) :
    out ⊆ scanFrom pending bytes out := by
  have hopened : ∀ b rest out, (∀ pending out, out ⊆ scanFrom pending rest out) →
      out ⊆ scanFrom none (b :: rest) out := fun b rest out ih => by
    rw [scanFrom_opening]
    cases opening b with
    | whole c => exact List.subset_of_cons_subset (ih none _)
    | begun p => exact ih (some p) out
    | bad => exact List.subset_of_cons_subset (ih none _)
  induction bytes generalizing pending out with
  | nil => cases pending with
    | none => exact List.Subset.refl _
    | some p => exact List.subset_cons_self _ _
  | cons b rest ih =>
    cases pending with
    | none => exact hopened b rest out ih
    | some p =>
      by_cases h : p.low.toNat ≤ b.toNat ∧ b.toNat ≤ p.high.toNat
      · rw [scanFrom_continued h.1 h.2]
        split
        · exact List.subset_of_cons_subset (ih none _)
        · exact ih _ out
      · rw [scanFrom_refused h]
        exact List.subset_of_cons_subset (hopened b rest _ ih)

/-- **What is read without a fault was written so.** -/
theorem exists_of_scanFrom {pending : Option Pending} {before bytes : Bytes} {out : List (Option Char)}
    (hbefore : Begun before pending) (h : none ∉ scanFrom pending bytes out) :
    ∃ cs : List Char, scanFrom pending bytes out = (cs.map some).reverse ++ out ∧
      before ++ bytes = cs.flatMap String.utf8EncodeChar := by
  induction bytes generalizing pending before out with
  | nil => cases pending with
    | none => exact ⟨[], rfl, by rw [show before = [] from hbefore]; rfl⟩
    | some p => exact absurd List.mem_cons_self h
  | cons b rest ih =>
    -- A whole character is read in front of the others.
    have hchar : ∀ c, String.utf8EncodeChar c = before ++ [b] →
        none ∉ scanFrom none rest (some c :: out) → ∃ cs : List Char,
          scanFrom none rest (some c :: out) = (cs.map some).reverse ++ out ∧
            before ++ b :: rest = cs.flatMap String.utf8EncodeChar := fun c hc h => by
      have hbegun : Begun [] none := rfl
      obtain ⟨cs, hread, hbytes⟩ := ih hbegun h
      refine ⟨c :: cs, ?_, ?_⟩
      · rw [hread, List.map_cons, List.reverse_cons, List.append_assoc]
        rfl
      · rw [List.flatMap_cons, ← hbytes, hc, List.append_assoc]
        rfl
    cases pending with
    | none =>
      cases hbefore
      rw [scanFrom_opening] at h ⊢
      cases hopening : opening b with
      | whole c =>
        rw [hopening] at h
        exact hchar c (opening_eq_whole hopening) h
      | begun p =>
        rw [hopening] at h
        have hbegun : Begun [b] (some p) := begins_of_opening hopening
        exact ih hbegun h
      | bad =>
        rw [hopening] at h
        exact absurd (subset_scanFrom _ _ _ List.mem_cons_self) h
    | some p =>
      have hbegins : Begins before p := hbefore
      by_cases hrange : p.low.toNat ≤ b.toNat ∧ b.toNat ≤ p.high.toNat
      · rw [scanFrom_continued hrange.1 hrange.2] at h ⊢
        split at h
        · next hdue =>
          rw [if_pos hdue]
          exact hchar _ (hbegins.ended hrange.1 hrange.2 hdue) h
        · next hdue =>
          rw [if_neg hdue]
          have hbegun : Begun (before ++ [b]) (some _) :=
            hbegins.continued hrange.1 hrange.2 (Nat.lt_of_not_le hdue)
          obtain ⟨cs, hread, hbytes⟩ := ih hbegun h
          refine ⟨cs, hread, ?_⟩
          rw [← hbytes, List.append_assoc]
          rfl
      · rw [scanFrom_refused hrange] at h
        exact absurd (subset_scanFrom _ _ _ List.mem_cons_self) h

theorem eq_map_some_of_mapM {scanned : List (Option Char)} {cs : List Char}
    (h : scanned.mapM id = some cs) : scanned = cs.map some := by
  induction scanned generalizing cs with
  | nil => cases h; rfl
  | cons c scanned ih =>
    rw [List.mapM_cons] at h
    obtain ⟨c', hc, htail⟩ := Option.bind_eq_some_iff.mp h
    obtain ⟨cs', hcs, hwhole⟩ := Option.bind_eq_some_iff.mp htail
    cases hwhole
    rw [List.map_cons, ← ih hcs, show c = some c' from hc]

/-- **A text is read from its own bytes and from no others.** -/
theorem decode?_eq_some_iff {bytes : Bytes} {s : String} :
    decode? bytes = some s ↔ bytes = Bytes.ofText s := by
  constructor
  · intro h
    rw [decode?, Option.map_eq_some_iff] at h
    obtain ⟨cs, hread, rfl⟩ := h
    have hscan := eq_map_some_of_mapM hread
    have hsound : none ∉ scanFrom none bytes [] := fun hnone => by
      have hmem : none ∈ scan bytes := List.mem_reverse.mpr hnone
      rw [hscan] at hmem
      obtain ⟨c, -, hc⟩ := List.mem_map.mp hmem
      cases hc
    have hbegun : Begun [] none := rfl
    obtain ⟨cs', hread', hbytes⟩ := exists_of_scanFrom hbegun hsound
    have hsame : cs'.map some = cs.map some := by
      rw [← hscan, scan, hread', List.append_nil, List.reverse_reverse]
    have hchars : cs' = cs := (List.map_inj_right fun _ _ => Option.some.inj).mp hsame
    rw [Bytes.ofText, String.toList_ofList, ← hchars, ← hbytes]
    rfl
  · rintro rfl
    exact decode?_ofText s

end Utf8

/-! ## Escapes -/

namespace Percent

theorem length_decode_le (bytes : Bytes) : (decode bytes).length ≤ bytes.length := by
  fun_induction decode bytes with
  | case1 b high low rest v hv ih =>
    simp only [List.length_cons]
    omega
  | case2 b high low rest hnone ih => exact Nat.succ_le_succ ih
  | case3 short => exact Nat.le_refl _

/-- Without an escape nothing is lost, and with one something is. -/
theorem decode_eq_self {bytes : Bytes} (h : bytes.length ≤ (decode bytes).length) :
    decode bytes = bytes := by
  fun_induction decode bytes with
  | case1 b high low rest v hv ih =>
    have hshort := length_decode_le rest
    simp only [List.length_cons] at h
    omega
  | case2 b high low rest hnone ih => rw [ih (Nat.le_of_succ_le_succ h)]
  | case3 short => rfl

/-- A byte that begins no escape is read as it is. -/
theorem decode_cons {b : UInt8} {rest : Bytes}
    (h : ∀ high low tail, b = sign → rest = high :: low :: tail → byte? high low = none) :
    decode (b :: rest) = b :: decode rest := by
  match rest with
  | [] | [_] => rfl
  | high :: low :: tail =>
    have hnone : (if b = sign then byte? high low else none) = none := by
      split
      · next hsign => exact h high low tail hsign rfl
      · rfl
    rw [decode, hnone]

section Kept

variable {keep : UInt8 → Bool} {b c high low v : UInt8} {bytes rest tail : Bytes}

theorem encode_cons : encode keep (b :: rest) =
    (if keep b then [b] else escape b) ++ encode keep rest := List.flatMap_cons

/-- A written byte that is no percent sign stands there as it was. -/
theorem exists_of_encode_eq_cons (h : encode keep bytes = c :: tail) (hc : c ≠ sign) :
    ∃ rest, bytes = c :: rest ∧ encode keep rest = tail := by
  cases bytes with
  | nil => cases h
  | cons b rest =>
    rw [encode_cons] at h
    split at h
    · obtain ⟨rfl, htail⟩ := List.cons.inj h
      exact ⟨rest, rfl, htail⟩
    · exact absurd (List.cons.inj h).1.symm hc

theorem isDigit_of_byte? (h : byte? high low = some v) :
    (Hex.value? high).isSome ∧ (Hex.value? low).isSome := by
  obtain ⟨first, hfirst, h⟩ := Option.bind_eq_some_iff.mp h
  obtain ⟨second, hsecond, -⟩ := Option.bind_eq_some_iff.mp h
  rw [hfirst, hsecond]
  exact ⟨rfl, rfl⟩

/-- The digits of a written escape were there before it was written. -/
theorem exists_of_encode_eq_escape (h : encode keep bytes = high :: low :: tail)
    (hbyte : byte? high low = some v) : ∃ rest, bytes = high :: low :: rest := by
  have hsign : (Hex.value? sign).isSome = false := rfl
  obtain ⟨hhigh, hlow⟩ := isDigit_of_byte? hbyte
  obtain ⟨rest, rfl, hrest⟩ := exists_of_encode_eq_cons h fun heq => by
    rw [heq, hsign] at hhigh
    cases hhigh
  obtain ⟨rest', rfl, -⟩ := exists_of_encode_eq_cons hrest fun heq => by
    rw [heq, hsign] at hlow
    cases hlow
  exact ⟨rest', rfl⟩

/-- **Escaping what may not stand leaves the escapes that are there**: if the percent sign and the digits
are kept, then what is read is what would have been read before. -/
theorem decode_encode_of_kept (hsign : keep sign = true)
    (hdigits : ∀ b, (Hex.value? b).isSome → keep b = true) (bytes : Bytes) :
    decode (encode keep bytes) = decode bytes := by
  induction hlength : bytes.length using Nat.strong_induction_on generalizing bytes with
  | _ length ih =>
    subst hlength
    cases bytes with
    | nil => rfl
    | cons b rest =>
      have hrest : decode (encode keep rest) = decode rest := ih rest.length (Nat.lt_succ_self _) rest rfl
      by_cases hescape : ∃ high low v tail, b = sign ∧ rest = high :: low :: tail ∧
          byte? high low = some v
      · obtain ⟨high, low, v, tail, rfl, rfl, hv⟩ := hescape
        obtain ⟨hhigh, hlow⟩ := isDigit_of_byte? hv
        have htail : decode (encode keep tail) = decode tail := ih tail.length (by simp; omega) tail rfl
        rw [encode_cons, encode_cons, encode_cons, if_pos hsign, if_pos (hdigits _ hhigh),
          if_pos (hdigits _ hlow)]
        change decode (sign :: high :: low :: encode keep tail) = _
        rw [decode, if_pos rfl, hv, decode, if_pos rfl, hv, htail]
      · have hplain : ∀ high low tail, b = sign → rest = high :: low :: tail →
            byte? high low = none := fun high low tail hb htail =>
          Option.eq_none_iff_forall_ne_some.mpr fun v hv => hescape ⟨high, low, v, tail, hb, htail, hv⟩
        rw [encode_cons, decode_cons hplain]
        split
        · rw [List.singleton_append, decode_cons, hrest]
          intro high low tail hb htail
          refine Option.eq_none_iff_forall_ne_some.mpr fun v hv => ?_
          obtain ⟨tail', rfl⟩ := exists_of_encode_eq_escape htail hv
          rw [hplain high low tail' hb rfl] at hv
          cases hv
        · rw [decode_escape, hrest]

end Kept

end Percent

end TransparencyLog
