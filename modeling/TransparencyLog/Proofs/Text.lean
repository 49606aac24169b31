import Mathlib.Data.List.Lex
import Mathlib.Logic.Function.Basic
import Mathlib.Tactic.SplitIfs
import TransparencyLog.Text.Utf8

/-!
# Texts and their bytes

Addresses and stored heads contain texts, which are kept as UTF-8 and read back byte by byte.

* `Utf8.scanFrom_char`: the bytes of one character are read as that character;
* **`Utf8.decode?_ofText`**, `Utf8.lossy_ofText`: the bytes of a text are read as that text;
* `Utf8.Before`, **`Utf8.before_iff_lt`**: texts are in the order of their bytes;
* `pairwise_mergeSort_text`: what is sorted by its texts;
* `utf8EncodeChar_of_lt`, `le_of_mem_utf8EncodeChar`: the characters of one byte and all others;
* `Bytes.ofText_injective`, `toString_injective`: different texts have different bytes, and
  different numbers different decimal texts.
-/

namespace TransparencyLog

namespace Utf8

/-! ## One byte -/

theorem scanFrom_opening (b : UInt8) (rest : Bytes) (out : List (Option Char)) :
    scanFrom none (b :: rest) out =
      match opening b with
      | .whole c => scanFrom none rest (some c :: out)
      | .begun p => scanFrom (some p) rest out
      | .bad => scanFrom none rest (none :: out) := by
  rw [scanFrom]; rfl

theorem scanFrom_continued {p : Pending} {b : UInt8} (hlow : p.low.toNat ≤ b.toNat)
    (hhigh : b.toNat ≤ p.high.toNat) (rest : Bytes) (out : List (Option Char)) :
    scanFrom (some p) (b :: rest) out =
      if p.due ≤ 1 then scanFrom none rest (some (Char.ofNat (p.bits * 0x40 + b.toNat % 0x40)) :: out)
      else scanFrom (some ⟨p.bits * 0x40 + b.toNat % 0x40, p.due - 1, 0x80, 0xBF⟩) rest out := by
  have hfilter : (some p).filter (fun p => p.low ≤ b && b ≤ p.high) = some p := by
    simp [Option.filter, UInt8.le_iff_toNat_le, hlow, hhigh]
  rw [scanFrom, hfilter]

theorem toNat_continuation (n : Nat) : (UInt8.ofNat (n % 0x40 + 0x80)).toNat = n % 0x40 + 0x80 := by
  rw [UInt8.toNat_ofNat']; omega

theorem scanFrom_middle {p : Pending} {n : Nat} (hlow : p.low.toNat ≤ n % 0x40 + 0x80)
    (hhigh : n % 0x40 + 0x80 ≤ p.high.toNat) (hdue : 1 < p.due) (rest : Bytes)
    (out : List (Option Char)) :
    scanFrom (some p) (UInt8.ofNat (n % 0x40 + 0x80) :: rest) out =
      scanFrom (some ⟨p.bits * 0x40 + n % 0x40, p.due - 1, 0x80, 0xBF⟩) rest out := by
  have hb := toNat_continuation n
  rw [scanFrom_continued (by omega) (by omega), if_neg (by omega), hb]
  congr 3
  omega

theorem scanFrom_last {p : Pending} {n : Nat} (hlow : p.low.toNat ≤ n % 0x40 + 0x80)
    (hhigh : n % 0x40 + 0x80 ≤ p.high.toNat) (hdue : p.due = 1) (rest : Bytes)
    (out : List (Option Char)) :
    scanFrom (some p) (UInt8.ofNat (n % 0x40 + 0x80) :: rest) out =
      scanFrom none rest (some (Char.ofNat (p.bits * 0x40 + n % 0x40)) :: out) := by
  have hb := toNat_continuation n
  rw [scanFrom_continued (by omega) (by omega), if_pos (by omega), hb]
  congr 4
  omega

/-! ## One character -/

section Opening

variable {v : Nat}

theorem opening_one (h : v ≤ 0x7f) : opening (UInt8.ofNat v) = .whole (Char.ofNat v) := by
  have hb : (UInt8.ofNat v).toNat = v := by rw [UInt8.toNat_ofNat']; omega
  simp only [opening, hb]
  rw [if_pos (by omega)]

theorem opening_two (h : 0x7f < v) (h' : v ≤ 0x7ff) :
    opening (UInt8.ofNat (v / 64 % 0x20 + 0xc0)) = .begun ⟨v / 64, 1, 0x80, 0xBF⟩ := by
  have hb : (UInt8.ofNat (v / 64 % 0x20 + 0xc0)).toNat = v / 64 + 0xc0 := by
    rw [UInt8.toNat_ofNat']; omega
  have hbits : (v / 64 + 0xc0) % 0x20 = v / 64 := by omega
  simp only [opening, hb]
  rw [if_neg (by omega), if_neg (by omega), if_pos (by omega), hbits]

/-- The first of three bytes; the surrogates are what its second byte's range leaves out. -/
theorem opening_three (h : 0x7ff < v) (h' : v ≤ 0xffff) (hv : v < 0xD800 ∨ 0xDFFF < v) :
    ∃ p, opening (UInt8.ofNat (v / 4096 % 0x10 + 0xe0)) = .begun p ∧ p.bits = v / 4096 ∧
      p.due = 2 ∧ p.low.toNat ≤ v / 64 % 0x40 + 0x80 ∧ v / 64 % 0x40 + 0x80 ≤ p.high.toNat := by
  have hb : (UInt8.ofNat (v / 4096 % 0x10 + 0xe0)).toNat = v / 4096 + 0xe0 := by
    rw [UInt8.toNat_ofNat']; omega
  simp only [opening, hb]
  rw [if_neg (by omega), if_neg (by omega), if_neg (by omega)]
  by_cases he0 : v / 4096 + 0xe0 = 0xE0
  · rw [if_pos he0]
    refine ⟨_, rfl, ?_, rfl, ?_, ?_⟩ <;> simp only [UInt8.reduceToNat] <;> omega
  by_cases hed : v / 4096 + 0xe0 = 0xED
  · rw [if_neg he0, if_pos hed]
    refine ⟨_, rfl, ?_, rfl, ?_, ?_⟩ <;> simp only [UInt8.reduceToNat] <;> omega
  rw [if_neg he0, if_neg hed, if_pos (by omega)]
  refine ⟨_, rfl, ?_, rfl, ?_, ?_⟩ <;> simp only [UInt8.reduceToNat] <;> omega

theorem opening_four (h : 0xffff < v) (h' : v < 0x110000) :
    ∃ p, opening (UInt8.ofNat (v / 262144 % 0x08 + 0xf0)) = .begun p ∧ p.bits = v / 262144 ∧
      p.due = 3 ∧ p.low.toNat ≤ v / 4096 % 0x40 + 0x80 ∧ v / 4096 % 0x40 + 0x80 ≤ p.high.toNat := by
  have hb : (UInt8.ofNat (v / 262144 % 0x08 + 0xf0)).toNat = v / 262144 + 0xf0 := by
    rw [UInt8.toNat_ofNat']; omega
  simp only [opening, hb]
  rw [if_neg (by omega), if_neg (by omega), if_neg (by omega), if_neg (by omega),
    if_neg (by omega), if_neg (by omega)]
  by_cases hf0 : v / 262144 + 0xf0 = 0xF0
  · rw [if_pos hf0]
    refine ⟨_, rfl, ?_, rfl, ?_, ?_⟩ <;> simp only [UInt8.reduceToNat] <;> omega
  by_cases hf4 : v / 262144 + 0xf0 < 0xF4
  · rw [if_neg hf0, if_pos hf4]
    refine ⟨_, rfl, ?_, rfl, ?_, ?_⟩ <;> simp only [UInt8.reduceToNat] <;> omega
  rw [if_neg hf0, if_neg hf4, if_pos (by omega)]
  refine ⟨_, rfl, ?_, rfl, ?_, ?_⟩ <;> simp only [UInt8.reduceToNat] <;> omega

end Opening

/-- **The bytes of a character are read as that character.** -/
theorem scanFrom_char (c : Char) (rest : Bytes) (out : List (Option Char)) :
    scanFrom none (String.utf8EncodeChar c ++ rest) out = scanFrom none rest (some c :: out) := by
  have hvalid : c.val.toNat < 0xD800 ∨ 0xDFFF < c.val.toNat ∧ c.val.toNat < 0x110000 := c.valid
  have hc : Char.ofNat c.val.toNat = c := Char.ofNat_toNat c
  simp only [String.utf8EncodeChar]
  generalize c.val.toNat = v at *
  subst hc
  by_cases h1 : v ≤ 0x7f
  · rw [if_pos h1, List.cons_append, scanFrom_opening, opening_one h1]
    rfl
  by_cases h2 : v ≤ 0x7ff
  · rw [if_neg h1, if_pos h2, List.cons_append, scanFrom_opening, opening_two (by omega) h2]
    refine (scanFrom_last (by simp) (by simp; omega) rfl rest out).trans ?_
    rw [show v / 64 * 0x40 + v % 0x40 = v by omega]
  by_cases h3 : v ≤ 0xffff
  · obtain ⟨p, hopen, hbits, hdue, hlow, hhigh⟩ := opening_three (by omega) h3 (by omega)
    rw [if_neg h1, if_neg h2, if_pos h3, List.cons_append, scanFrom_opening, hopen]
    refine (scanFrom_middle hlow hhigh (by omega) _ out).trans ?_
    refine (scanFrom_last (by simp) (by simp; omega) (by simp only; omega) rest out).trans ?_
    rw [hbits, show (v / 4096 * 0x40 + v / 64 % 0x40) * 0x40 + v % 0x40 = v by omega]
  · obtain ⟨p, hopen, hbits, hdue, hlow, hhigh⟩ := opening_four (v := v) (by omega) (by omega)
    rw [if_neg h1, if_neg h2, if_neg h3, List.cons_append, scanFrom_opening, hopen]
    refine (scanFrom_middle hlow hhigh (by omega) _ out).trans ?_
    refine (scanFrom_middle (by simp) (by simp; omega) (by simp only; omega) _ out).trans ?_
    refine (scanFrom_last (by simp) (by simp; omega) (by simp only; omega) rest out).trans ?_
    rw [hbits, show ((v / 262144 * 0x40 + v / 4096 % 0x40) * 0x40 + v / 64 % 0x40) * 0x40 +
      v % 0x40 = v by omega]

/-! ## Whole texts -/

theorem scanFrom_chars (cs : List Char) (out : List (Option Char)) :
    scanFrom none (cs.flatMap String.utf8EncodeChar) out = (cs.map some).reverse ++ out := by
  induction cs generalizing out with
  | nil => rfl
  | cons c cs ih =>
    rw [List.flatMap_cons, scanFrom_char, ih, List.map_cons, List.reverse_cons, List.append_assoc]
    rfl

/-- **The bytes of a text are read as that text.** -/
theorem decode?_ofText (s : String) : decode? (Bytes.ofText s) = some s := by
  have hmap : ∀ cs : List Char, (cs.map some).mapM id = some cs := by
    intro cs
    induction cs with
    | nil => rfl
    | cons c cs ih => rw [List.map_cons, List.mapM_cons, ih]; rfl
  rw [decode?, scan, Bytes.ofText, scanFrom_chars, List.append_nil, List.reverse_reverse, hmap,
    Option.map_some, String.ofList_toList]

/-- Nothing is replaced in the bytes of a text. -/
theorem lossy_ofText (s : String) : lossy (Bytes.ofText s) = s := by
  rw [lossy, scan, Bytes.ofText, scanFrom_chars, List.append_nil, List.reverse_reverse, List.map_map]
  have hsame : ((fun c : Option Char => c.getD (Char.ofNat 0xFFFD)) ∘ some) = id := rfl
  rw [hsame, List.map_id, String.ofList_toList]

/-! ## The order of texts -/

/-- Byte by byte, the first that differs decides. -/
def ByteOrder : Bytes → Bytes → Prop := List.Lex fun a b => a.toNat < b.toNat

/-- The bytes of one text are before those of another. -/
def Before (s t : String) : Prop := ByteOrder (Bytes.ofText s) (Bytes.ofText t)

section Order

variable {v w : Nat} {bytes bytes' : Bytes}

theorem byteOrder_of_lt (hlt : v < w) (hw : w < 256) :
    ByteOrder (UInt8.ofNat v :: bytes) (UInt8.ofNat w :: bytes') := by
  refine List.Lex.rel ?_
  rw [UInt8.toNat_ofNat_of_lt' (hlt.trans hw), UInt8.toNat_ofNat_of_lt' hw]
  exact hlt

theorem byteOrder_cons (hw : w < 256) (h : v < w ∨ v = w ∧ ByteOrder bytes bytes') :
    ByteOrder (UInt8.ofNat v :: bytes) (UInt8.ofNat w :: bytes') := by
  rcases h with hlt | ⟨rfl, hrest⟩
  · exact byteOrder_of_lt hlt hw
  · exact List.Lex.cons hrest

/-- A continuation byte has six bits of a number, so of two numbers with the same bits above it the
lower has the lower byte. -/
theorem byteOrder_continuation (habove : v / 64 = w / 64)
    (h : v < w ∨ v = w ∧ ByteOrder bytes bytes') :
    ByteOrder (UInt8.ofNat (v % 0x40 + 0x80) :: bytes) (UInt8.ofNat (w % 0x40 + 0x80) :: bytes') := by
  refine byteOrder_cons (by omega) ?_
  rcases h with hlt | ⟨rfl, hrest⟩
  · exact Or.inl (by omega)
  · exact Or.inr ⟨rfl, hrest⟩

/-- Of two quotients, that of the lower number is the lower one, or they are equal. -/
theorem div_lt_or_eq (h : v < w) (k : Nat) : v / k < w / k ∨ v / k = w / k :=
  Nat.lt_or_eq_of_le (Nat.div_le_div_right h.le)

/-- **The lower character has the lower bytes**, whatever follows. -/
theorem byteOrder_char {c d : Char} (h : c < d) (rest rest' : Bytes) :
    ByteOrder (String.utf8EncodeChar c ++ rest) (String.utf8EncodeChar d ++ rest') := by
  have hlt : c.val.toNat < d.val.toNat := h
  have hvalid : d.val.toNat < 0xD800 ∨ 0xDFFF < d.val.toNat ∧ d.val.toNat < 0x110000 := d.valid
  simp only [String.utf8EncodeChar]
  generalize c.val.toNat = v at *
  generalize d.val.toNat = w at *
  have last : v / 64 = w / 64 → ByteOrder (UInt8.ofNat (v % 0x40 + 0x80) :: rest)
      (UInt8.ofNat (w % 0x40 + 0x80) :: rest') :=
    fun habove => byteOrder_continuation habove (Or.inl hlt)
  have lastTwo : v / 4096 = w / 4096 →
      ByteOrder (UInt8.ofNat (v / 64 % 0x40 + 0x80) :: UInt8.ofNat (v % 0x40 + 0x80) :: rest)
        (UInt8.ofNat (w / 64 % 0x40 + 0x80) :: UInt8.ofNat (w % 0x40 + 0x80) :: rest') :=
    fun habove => byteOrder_continuation (by omega)
      ((div_lt_or_eq hlt 64).imp_right fun heq => ⟨heq, last heq⟩)
  -- The first byte tells the number of bytes, and more bytes have a greater one.
  by_cases h1 : w ≤ 0x7f
  · rw [if_pos (hlt.le.trans h1), if_pos h1]
    exact byteOrder_of_lt hlt (by omega)
  by_cases h2 : w ≤ 0x7ff
  · rw [if_neg h1, if_pos h2]
    split_ifs
    · exact byteOrder_of_lt (by omega) (by omega)
    · refine byteOrder_cons (by omega) ?_
      rcases div_lt_or_eq hlt 64 with hless | heq
      · exact Or.inl (by omega)
      · exact Or.inr ⟨by omega, last heq⟩
    · omega
    · omega
  by_cases h3 : w ≤ 0xffff
  · rw [if_neg h1, if_neg h2, if_pos h3]
    split_ifs
    · exact byteOrder_of_lt (by omega) (by omega)
    · exact byteOrder_of_lt (by omega) (by omega)
    · refine byteOrder_cons (by omega) ?_
      rcases div_lt_or_eq hlt 4096 with hless | heq
      · exact Or.inl (by omega)
      · exact Or.inr ⟨by omega, lastTwo heq⟩
    · omega
  · rw [if_neg h1, if_neg h2, if_neg h3]
    split_ifs
    · exact byteOrder_of_lt (by omega) (by omega)
    · exact byteOrder_of_lt (by omega) (by omega)
    · exact byteOrder_of_lt (by omega) (by omega)
    · refine byteOrder_cons (by omega) ?_
      rcases div_lt_or_eq hlt 262144 with hless | heq
      · exact Or.inl (by omega)
      · refine Or.inr ⟨by omega, byteOrder_continuation (by omega) ?_⟩
        exact (div_lt_or_eq hlt 4096).imp_right fun heq => ⟨heq, lastTwo heq⟩

theorem byteOrder_chars {cs ds : List Char} (h : cs < ds) :
    ByteOrder (cs.flatMap String.utf8EncodeChar) (ds.flatMap String.utf8EncodeChar) := by
  induction h with
  | @nil d ds =>
    obtain ⟨b, rest, hd⟩ := List.exists_cons_of_ne_nil (String.utf8EncodeChar_ne_nil (c := d))
    rw [List.flatMap_cons, hd]
    exact List.Lex.nil
  | cons _ ih => exact List.Lex.append_left _ ih _
  | rel h => exact byteOrder_char h _ _

theorem ByteOrder.asymm (h : ByteOrder bytes bytes') : ¬ ByteOrder bytes' bytes := by
  have : Std.Asymm fun a b : UInt8 => a.toNat < b.toNat := ⟨fun _ _ => Nat.lt_asymm⟩
  exact (List.Lex.asymm _).asymm _ _ h

/-- **Texts are in the order of their bytes.** -/
theorem before_iff_lt {s t : String} : Before s t ↔ s < t := by
  constructor
  · intro h
    by_contra hlt
    rcases Decidable.em (s = t) with rfl | hne
    · exact h.asymm h
    · have hle : t ≤ s := String.not_lt.mp hlt
      have hgt : t < s := String.not_le.mp fun hst => hne (String.le_antisymm hst hle)
      exact h.asymm (byteOrder_chars hgt)
  · exact byteOrder_chars

end Order

end Utf8

/-- What is sorted by its texts has them in ascending order. -/
theorem pairwise_mergeSort_text {α : Type} (text : α → String) (items : List α) :
    (items.mergeSort fun a b => decide (text a ≤ text b)).Pairwise fun a b => text a ≤ text b := by
  refine (List.pairwise_mergeSort (fun a b c hab hbc => ?_) (fun a b => ?_) items).imp
    of_decide_eq_true
  · simp only [decide_eq_true_eq] at hab hbc ⊢
    exact String.le_trans hab hbc
  · simpa using String.le_total (text a) (text b)

/-! ## Apart by their bytes -/

/-- A character of the first 128 is one byte. -/
theorem utf8EncodeChar_of_lt {c : Char} (h : c.toNat < 128) :
    String.utf8EncodeChar c = [UInt8.ofNat c.toNat] := by
  unfold String.utf8EncodeChar
  rw [if_pos (by show c.toNat ≤ 127; omega)]
  rfl

/-- The bytes of any other character are greater. -/
theorem le_of_mem_utf8EncodeChar {c : Char} (h : 128 ≤ c.toNat) {b : UInt8}
    (hb : b ∈ String.utf8EncodeChar c) : 128 ≤ b.toNat := by
  have hc : c.val.toNat = c.toNat := rfl
  unfold String.utf8EncodeChar at hb
  simp only [hc] at hb
  rw [if_neg (by omega)] at hb
  split at hb
  · simp only [List.mem_cons, List.not_mem_nil, or_false] at hb
    rcases hb with rfl | rfl <;> rw [UInt8.toNat_ofNat'] <;> omega
  split at hb <;> simp only [List.mem_cons, List.not_mem_nil, or_false] at hb
  · rcases hb with rfl | rfl | rfl <;> rw [UInt8.toNat_ofNat'] <;> omega
  · rcases hb with rfl | rfl | rfl | rfl <;> rw [UInt8.toNat_ofNat'] <;> omega

theorem Bytes.ofText_injective : Function.Injective Bytes.ofText := fun s t h => by
  have hs := Utf8.decode?_ofText s
  rw [h, Utf8.decode?_ofText] at hs
  exact (Option.some.inj hs).symm

theorem Bytes.ofText_append (s t : String) : ofText (s ++ t) = ofText s ++ ofText t := by
  simp [ofText]

theorem toString_injective : Function.Injective (toString : Nat → String) := fun m n h => by
  have hdigits : Nat.toDigits 10 m = Nat.toDigits 10 n := by
    have := congrArg String.toList h
    simpa [Nat.toString_eq_ofList_toDigits] using this
  rw [← Nat.ofDigitChars_ten_toDigits (n := m), hdigits, Nat.ofDigitChars_ten_toDigits]

end TransparencyLog
