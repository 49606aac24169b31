import Mathlib.Data.List.TakeWhile
import TransparencyLog.Data.Json
import TransparencyLog.Proofs.Numerals
import TransparencyLog.Proofs.Text
import TransparencyLog.Text.Hex

/-!
# Written data is read back

The compact text of data is read back as that data, as long as all its strings are texts and all its
numbers are integers. The text becomes the tokens of the data, and the tokens lead the machine from any
place where a value may stand to the place after it.

* `Data.isPlain`: data that loses nothing in writing;
* `Json.scan_quote`, `Json.scan_integer`: texts and numbers become single tokens;
* `Json.scan_chars`: data becomes its tokens;
* `Json.run_tokens`: tokens become the data;
* **`Json.parse?_write`**: both.
-/

namespace TransparencyLog

namespace Data

mutual

/-- Whether every string and every name is a text, and every number an integer. -/
def isPlain : Data → Bool
  | .other _ => false
  | .string content => content.isSome
  | .list items => arePlain items
  | .table fields => havePlain fields
  | _ => true

/-- Whether this holds of all items. -/
def arePlain : List Data → Bool
  | [] => true
  | d :: rest => isPlain d && arePlain rest

/-- Whether this holds of all fields. -/
def havePlain : List (Option String × Data) → Bool
  | [] => true
  | (name, d) :: rest => name.isSome && isPlain d && havePlain rest

end

theorem arePlain_iff {items : List Data} : arePlain items = true ↔ ∀ d ∈ items, d.isPlain = true := by
  induction items with
  | nil => simp [arePlain]
  | cons d rest ih => simp [arePlain, ih]

theorem isPlain_object {fields : List (String × Data)} (h : ∀ field ∈ fields, field.2.isPlain = true) :
    (object fields).isPlain = true := by
  rw [object, isPlain]
  induction fields with
  | nil => rfl
  | cons field rest ih =>
    rw [List.map_cons, havePlain, ih fun field hfield => h field (List.mem_cons_of_mem _ hfield),
      h field List.mem_cons_self]
    rfl

end Data

namespace Json

/-- The bytes of some characters. -/
def bytesOf (cs : List Char) : Bytes := cs.flatMap String.utf8EncodeChar

@[simp] theorem bytesOf_nil : bytesOf [] = [] := rfl

@[simp] theorem bytesOf_cons (c : Char) (cs : List Char) :
    bytesOf (c :: cs) = String.utf8EncodeChar c ++ bytesOf cs := rfl

@[simp] theorem bytesOf_append (cs cs' : List Char) :
    bytesOf (cs ++ cs') = bytesOf cs ++ bytesOf cs' := List.flatMap_append

theorem ofText_ofList (cs : List Char) : Bytes.ofText (String.ofList cs) = bytesOf cs := by
  rw [Bytes.ofText, String.toList_ofList, bytesOf]

section Scan

variable {rest : Bytes} {out : List Token} {b : UInt8}

theorem scan_cons {pending pending' : Pending} {out' : List Token}
    (h : scanByte b pending out = some (pending', out')) :
    scan (b :: rest) pending out = scan rest pending' out' := by
  rw [scan, h]

/-! ## Strings -/

/-- A string of which some bytes have been read, all of them sound. -/
def sound (reversed : Bytes) : Partial := ⟨reversed, true, none⟩

/-- A character has been read from a string. -/
def Reads (written : Bytes) (c : Char) : Prop := ∀ (reversed rest : Bytes) (out : List Token),
  scan (written ++ rest) (.string (sound reversed)) out =
    scan rest (.string (sound ((String.utf8EncodeChar c).reverse ++ reversed))) out

/-- Bytes that are neither marks nor controls are taken as they are. -/
theorem scan_plain {word : Bytes} (h : ∀ b ∈ word, 32 ≤ b.toNat ∧ b ≠ 34 ∧ b ≠ 92)
    (reversed : Bytes) : scan (word ++ rest) (.string (sound reversed)) out =
      scan rest (.string (sound (word.reverse ++ reversed))) out := by
  induction word generalizing reversed with
  | nil => rfl
  | cons b word ih =>
    obtain ⟨hcontrol, hquote, hescape⟩ := h b List.mem_cons_self
    have hbyte : scanByte b (.string (sound reversed)) out =
        some (.string (sound (b :: reversed)), out) := by
      rw [scanByte, if_neg hquote, if_neg hescape, if_neg]
      · rfl
      · rw [UInt8.lt_iff_toNat_lt]
        simpa using hcontrol
    rw [List.cons_append, scan_cons hbyte, ih (fun b hb => h b (List.mem_cons_of_mem _ hb)),
      List.reverse_cons, List.append_assoc]
    rfl

/-- A character with a short escape. -/
theorem reads_short {mark : UInt8} {c : Char} (h : escaped? mark = some (UInt8.ofNat c.toNat))
    (hmark : mark ≠ 117) (hc : c.toNat < 128) : Reads [92, mark] c := by
  intro reversed rest out
  have hbyte : scanByte mark (.escape (sound reversed)) out =
      some (.string (sound (UInt8.ofNat c.toNat :: reversed)), out) := by
    rw [scanByte, if_neg hmark, h]
    rfl
  rw [utf8EncodeChar_of_lt hc]
  exact scan_cons hbyte

theorem exists_hexPair {n : Nat} (h : n < 256) : ∃ high low,
    bytesOf (hexPair n) = [high, low] ∧ hexValue? high = some (n / 16) ∧
      hexValue? low = some (n % 16) := by
  have hdigit : ∀ d : Fin 16, String.utf8EncodeChar (Hex.digit d.val) =
      [UInt8.ofNat (Hex.digit d.val).toNat] ∧
      hexValue? (UInt8.ofNat (Hex.digit d.val).toNat) = some d.val := by decide
  obtain ⟨hhigh, hvalue⟩ := hdigit ⟨n / 16, by omega⟩
  obtain ⟨hlow, hvalue'⟩ := hdigit ⟨n % 16, by omega⟩
  refine ⟨_, _, ?_, hvalue, hvalue'⟩
  show String.utf8EncodeChar (Hex.digit (n / 16)) ++
    (String.utf8EncodeChar (Hex.digit (n % 16)) ++ []) = _
  rw [hhigh, hlow]
  rfl

/-- A control character, escaped by its number. -/
theorem reads_number {c : Char} (hc : c.toNat < 32) :
    Reads (bytesOf (['\\', 'u', '0', '0'] ++ hexPair c.toNat)) c := by
  obtain ⟨high, low, hbytes, hhigh, hlow⟩ := exists_hexPair (n := c.toNat) (by omega)
  intro reversed rest out
  have hfirst : scanByte high (.unit (sound reversed) 2 0) out =
      some (.unit (sound reversed) 1 (c.toNat / 16), out) := by
    simp [scanByte, hhigh]
  have hlast : scanByte low (.unit (sound reversed) 1 (c.toNat / 16)) out =
      some (.string (sound ((String.utf8EncodeChar c).reverse ++ reversed)), out) := by
    have hnumber : 16 * (c.toNat / 16) + c.toNat % 16 = c.toNat := by omega
    have hunit : (sound reversed).pushUnit c.toNat =
        sound ((String.utf8EncodeChar c).reverse ++ reversed) := by
      have hlowUnit : (decide (0xDC00 ≤ c.toNat) && decide (c.toNat < 0xE000)) = false := by
        simp; omega
      have hhighUnit : (decide (0xD800 ≤ c.toNat) && decide (c.toNat < 0xDC00)) = false := by
        simp; omega
      simp only [Partial.pushUnit, sound, hlowUnit, hhighUnit]
      rw [if_neg (by simp), Char.ofNat_toNat]
      rfl
    simp [scanByte, hlow, hnumber, hunit]
  rw [bytesOf_append, hbytes]
  have hzero : ∀ due, 1 < due → scanByte 48 (.unit (sound reversed) due 0) out =
      some (.unit (sound reversed) (due - 1) 0, out) := by
    intro due hdue
    show some (if due ≤ 1 then _ else _) = _
    rw [if_neg (by omega)]
    rfl
  show scan (92 :: 117 :: 48 :: 48 :: high :: low :: rest) (.string (sound reversed)) out = _
  rw [scan_cons (show scanByte 92 (.string (sound reversed)) out = _ from rfl),
    scan_cons (show scanByte 117 (.escape (sound reversed)) out = _ from rfl),
    scan_cons (hzero 4 (by decide)), scan_cons (hzero 3 (by decide)), scan_cons hfirst,
    scan_cons hlast]

/-- A character that stands for itself. -/
theorem reads_plain {c : Char} (hquote : c.toNat ≠ 34) (hescape : c.toNat ≠ 92) (hc : 32 ≤ c.toNat) :
    Reads (bytesOf [c]) c := by
  intro reversed rest out
  rw [bytesOf_cons, bytesOf_nil, List.append_nil]
  refine scan_plain (fun b hb => ?_) reversed
  by_cases hascii : c.toNat < 128
  · rw [utf8EncodeChar_of_lt hascii, List.mem_singleton] at hb
    have hnumber : b.toNat = c.toNat := by rw [hb, UInt8.toNat_ofNat']; omega
    refine ⟨by omega, ?_, ?_⟩
    · rintro rfl
      exact hquote hnumber.symm
    · rintro rfl
      exact hescape hnumber.symm
  · have hlarge := le_of_mem_utf8EncodeChar (by omega) hb
    refine ⟨by omega, ?_, ?_⟩
    · rintro rfl
      exact absurd hlarge (by decide)
    · rintro rfl
      exact absurd hlarge (by decide)

theorem reads_escapeChar (c : Char) : Reads (bytesOf (escapeChar c)) c := by
  unfold escapeChar
  split
  · next h => exact reads_short (by rw [h]; rfl) (by decide) (by omega)
  · next h => exact reads_short (by rw [h]; rfl) (by decide) (by omega)
  · next h => exact reads_short (by rw [h]; rfl) (by decide) (by omega)
  · next h => exact reads_short (by rw [h]; rfl) (by decide) (by omega)
  · next h => exact reads_short (by rw [h]; rfl) (by decide) (by omega)
  · next h => exact reads_short (by rw [h]; rfl) (by decide) (by omega)
  · next h => exact reads_short (by rw [h]; rfl) (by decide) (by omega)
  · next hquote hescape _ _ _ _ _ =>
    split
    · next hcontrol => exact reads_number hcontrol
    · next hcontrol => exact reads_plain hquote hescape (Nat.not_lt.mp hcontrol)

/-- The characters of a text are read one by one. -/
theorem scan_escaped (cs : List Char) (reversed : Bytes) :
    scan (bytesOf (cs.flatMap escapeChar) ++ 34 :: rest) (.string (sound reversed)) out =
      scan (34 :: rest) (.string (sound ((bytesOf cs).reverse ++ reversed))) out := by
  induction cs generalizing reversed with
  | nil => rfl
  | cons c cs ih =>
    rw [List.flatMap_cons, bytesOf_append, List.append_assoc, reads_escapeChar, ih, bytesOf_cons,
      List.reverse_append, List.append_assoc]

/-- **A written text is one token.** -/
theorem scan_quote (text : String) : scan (bytesOf (quote text) ++ rest) .nothing out =
    scan rest .nothing (.scalar (.text text) :: out) := by
  have hopen : scanByte 34 .nothing out = some (.string (sound []), out) := rfl
  have hclose : scanByte 34 (.string (sound (bytesOf text.toList).reverse)) out =
      some (.nothing, .scalar (.text text) :: out) := by
    have hdecode : Utf8.decode? (bytesOf text.toList) = some text := Utf8.decode?_ofText text
    show some (Pending.nothing, Token.scalar
      (.string (Utf8.decode? (bytesOf text.toList).reverse.reverse)) :: out) = _
    rw [List.reverse_reverse, hdecode]
    rfl
  rw [quote, bytesOf_cons, bytesOf_append]
  show scan (34 :: (bytesOf (text.toList.flatMap escapeChar) ++ [34] ++ rest)) .nothing out = _
  rw [scan_cons hopen, List.append_assoc, List.singleton_append, scan_escaped, List.append_nil,
    scan_cons hclose]

/-! ## Words -/

/-- No word goes on here. -/
def Ends (rest : Bytes) : Prop := ∀ b ∈ rest.head?, isWordByte b = false

/-- The bytes of a word are gathered. -/
theorem scan_gathered {word : Bytes} (h : ∀ b ∈ word, isWordByte b = true) (reversed : Bytes) :
    scan (word ++ rest) (.word reversed) out = scan rest (.word (word.reverse ++ reversed)) out := by
  induction word generalizing reversed with
  | nil => rfl
  | cons b word ih =>
    have hbyte : scanByte b (.word reversed) out = some (.word (b :: reversed), out) := by
      rw [scanByte, if_pos (h b List.mem_cons_self)]
    rw [List.cons_append, scan_cons hbyte, ih fun b hb => h b (List.mem_cons_of_mem _ hb),
      List.reverse_cons, List.append_assoc]
    rfl

/-- **A written literal or number is one token.** -/
theorem scan_word (ends : Ends rest) {word : Bytes} {d : Data} (hne : word ≠ [])
    (h : ∀ b ∈ word, isWordByte b = true) (hvalue : wordValue? word = some d) :
    scan (word ++ rest) .nothing out = scan rest .nothing (.scalar d :: out) := by
  obtain ⟨b, word, rfl⟩ := List.exists_cons_of_ne_nil hne
  have hb := h b List.mem_cons_self
  have hfirst : scanByte b .nothing out = some (.word [b], out) := by
    have hblank : isBlank b = false := by
      simp only [isBlank, Bool.or_eq_false_iff, beq_eq_false_iff_ne]
      refine ⟨⟨⟨?_, ?_⟩, ?_⟩, ?_⟩ <;> rintro rfl <;> cases hb
    have hquote : b ≠ 34 := by
      rintro rfl
      cases hb
    rw [scanByte, startToken, if_neg (by simp [hblank]), if_neg hquote, if_pos hb]
  rw [List.cons_append, scan_cons hfirst, scan_gathered fun b hb => h b (List.mem_cons_of_mem _ hb)]
  have hword : (word.reverse ++ [b]).reverse = b :: word := by simp
  cases rest with
  | nil => simp [scan, hword, hvalue]
  | cons next rest =>
    have hnext : isWordByte next = false := ends next rfl
    have hbyte : scanByte next (.word (word.reverse ++ [b])) out =
        scanByte next .nothing (.scalar d :: out) := by
      simp only [scanByte, hnext, hword, hvalue]
      rfl
    rw [scan, scan, hbyte]

/-! ## Integers -/

/-- A number above zero does not begin with a zero. -/
theorem head_toDigits {n : Nat} (h : 0 < n) : ∃ c rest, Nat.toDigits 10 n = c :: rest ∧ c ≠ '0' := by
  induction n using Nat.strongRecOn with
  | ind n ih =>
    rw [Nat.toDigits_eq_if (by omega)]
    split
    · next hlt =>
      have hall : ∀ d : Fin 10, 0 < d.val → d.val.digitChar ≠ '0' := by decide
      exact ⟨_, [], rfl, hall ⟨n, hlt⟩ h⟩
    · next hge =>
      obtain ⟨c, rest, hdigits, hc⟩ := ih (n / 10) (by omega) (by omega)
      exact ⟨c, rest ++ [(n % 10).digitChar], by rw [hdigits]; rfl, hc⟩

theorem toNat_digit {c : Char} (h : c.isDigit = true) : (UInt8.ofNat c.toNat).toNat = c.toNat := by
  have := Decimal.isDigit_bounds h
  rw [UInt8.toNat_ofNat']
  omega

theorem bytesOf_digits {cs : List Char} (h : ∀ c ∈ cs, c.isDigit = true) :
    bytesOf cs = cs.map fun c => UInt8.ofNat c.toNat := by
  induction cs with
  | nil => rfl
  | cons c cs ih =>
    have := Decimal.isDigit_bounds (h c List.mem_cons_self)
    rw [bytesOf_cons, utf8EncodeChar_of_lt (by omega), ih fun c hc => h c (List.mem_cons_of_mem _ hc)]
    rfl

/-- Digits stand for the same number as bytes and as characters. -/
theorem foldl_digits {cs : List Char} (h : ∀ c ∈ cs, c.isDigit = true) (start : Nat) :
    (cs.map fun c => UInt8.ofNat c.toNat).foldl (fun n b => 10 * n + (b.toNat - 48)) start =
      Nat.ofDigitChars 10 cs start := by
  induction cs generalizing start with
  | nil => rfl
  | cons c cs ih =>
    rw [List.map_cons, List.foldl_cons, toNat_digit (h c List.mem_cons_self),
      ih fun c hc => h c (List.mem_cons_of_mem _ hc)]
    rfl

/-- The bytes of a natural number: digits that stand for it, and no zero in front of others. -/
theorem exists_digits (n : Nat) : ∃ first others, bytesOf (Nat.toDigits 10 n) = first :: others ∧
    (∀ b ∈ first :: others, 48 ≤ b.toNat ∧ b.toNat ≤ 57) ∧
    digitsNumber (first :: others) = n ∧ (others ≠ [] → first ≠ 48) := by
  have hdigit : ∀ c ∈ Nat.toDigits 10 n, c.isDigit = true :=
    fun c hc => Nat.isDigit_of_mem_toDigits (by omega) (by omega) hc
  obtain ⟨c, rest, hcs, -⟩ := Decimal.exists_toDigits n
  refine ⟨UInt8.ofNat c.toNat, rest.map fun c => UInt8.ofNat c.toNat, ?_, ?_, ?_, ?_⟩
  · rw [bytesOf_digits hdigit, hcs, List.map_cons]
  · rw [← List.map_cons (f := fun c : Char => UInt8.ofNat c.toNat), ← hcs]
    intro b hb
    obtain ⟨c, hc, rfl⟩ := List.mem_map.mp hb
    rw [toNat_digit (hdigit c hc)]
    exact Decimal.isDigit_bounds (hdigit c hc)
  · rw [← List.map_cons (f := fun c : Char => UInt8.ofNat c.toNat), ← hcs, digitsNumber,
      foldl_digits hdigit, Nat.ofDigitChars_ten_toDigits]
  · intro hothers hzero
    have hpos : 0 < n := by
      rcases Nat.eq_zero_or_pos n with rfl | hpos
      · cases hcs
        exact absurd rfl hothers
      · exact hpos
    obtain ⟨c', rest', hcs', hne⟩ := head_toDigits hpos
    rw [hcs] at hcs'
    obtain ⟨rfl, -⟩ := List.cons.inj hcs'
    have hnat := toNat_digit (hdigit c (hcs ▸ List.mem_cons_self))
    rw [hzero] at hnat
    exact hne (Char.ext (UInt32.toNat.inj hnat.symm))

theorem spanDigits_eq {digits : Bytes} (h : ∀ b ∈ digits, 48 ≤ b.toNat ∧ b.toNat ≤ 57) :
    spanDigits digits = (digits, []) := by
  have hdigit : ∀ b ∈ digits, (decide (48 ≤ b) && decide (b ≤ 57)) = true := by
    intro b hb
    have := h b hb
    simp only [Bool.and_eq_true, decide_eq_true_eq, UInt8.le_iff_toNat_le]
    exact this
  rw [spanDigits, List.takeWhile_eq_self_iff.mpr hdigit, List.dropWhile_eq_nil_iff.mpr hdigit]

/-- Digits are the word of a natural number. -/
theorem wordValue?_digits {first : UInt8} {others : Bytes}
    (hdigits : ∀ b ∈ first :: others, 48 ≤ b.toNat ∧ b.toNat ≤ 57)
    (hzero : others ≠ [] → first ≠ 48) :
    wordValue? (first :: others) = some (.integer (digitsNumber (first :: others))) ∧
      (0 < digitsNumber (first :: others) → wordValue? (45 :: first :: others) =
        some (.integer (-(digitsNumber (first :: others) : Int)))) := by
  have hfirst := hdigits first List.mem_cons_self
  have hspan := spanDigits_eq hdigits
  have hlead : 0 < others.length → ¬ first = 48 := fun h => hzero (List.ne_nil_of_length_pos h)
  have hliteral : ∀ (b : UInt8) (word : Bytes), b.toNat < 97 → b :: word ≠ Bytes.ofText "null" ∧
      b :: word ≠ Bytes.ofText "true" ∧ b :: word ≠ Bytes.ofText "false" := by
    intro b word hb
    refine ⟨?_, ?_, ?_⟩ <;> intro h <;> rw [(List.cons.inj h).1] at hb <;>
      exact absurd hb (by decide)
  constructor
  · obtain ⟨hnull, htrue, hfalse⟩ := hliteral first others (by omega)
    have hminus : first ≠ 45 := by
      rintro rfl
      exact absurd hfirst.1 (by decide)
    unfold wordValue?
    rw [if_neg hnull, if_neg htrue, if_neg hfalse]
    simpa [hspan, hminus] using hlead
  · intro hpos
    obtain ⟨hnull, htrue, hfalse⟩ := hliteral 45 (first :: others) (by decide)
    unfold wordValue?
    rw [if_neg hnull, if_neg htrue, if_neg hfalse]
    simpa [hspan, hpos.ne'] using hlead

/-- A sign or a digit begins a number. -/
theorem wordValue?_integer (n : Int) :
    wordValue? (bytesOf (toString n).toList) = some (.integer n) := by
  obtain ⟨first, others, hbytes, hdigits, hnumber, hzero⟩ := exists_digits n.natAbs
  obtain ⟨hplain, hsigned⟩ := wordValue?_digits hdigits hzero
  rw [hnumber] at hplain hsigned
  rcases Decimal.toString_int_cases n with ⟨hsign, heq⟩ | ⟨hsign, heq⟩
  · rw [heq, hbytes, hplain, Int.natAbs_of_nonneg hsign]
  · rw [heq, bytesOf_cons, hbytes]
    refine (hsigned (by omega)).trans (congrArg (fun n => some (Data.integer n)) ?_)
    omega

/-- The bytes of an integer may all be part of a number. -/
theorem isWordByte_integer {n : Int} (h : b ∈ bytesOf (toString n).toList) : isWordByte b = true := by
  obtain ⟨c, hc, hb⟩ := List.mem_flatMap.mp h
  rcases Decimal.mem_toString_int hc with rfl | hdigit
  · obtain rfl := List.mem_singleton.mp hb
    rfl
  · have hbounds := Decimal.isDigit_bounds hdigit
    rw [utf8EncodeChar_of_lt (by omega), List.mem_singleton] at hb
    have hnumber : b.toNat = c.toNat := by rw [hb, UInt8.toNat_ofNat']; omega
    simp only [isWordByte, Bool.or_eq_true, Bool.and_eq_true, decide_eq_true_eq,
      UInt8.le_iff_toNat_le, hnumber]
    exact Or.inl (Or.inl (Or.inl (Or.inr hbounds)))

/-- **A written integer is one token.** -/
theorem scan_integer (ends : Ends rest) (n : Int) :
    scan (bytesOf (toString n).toList ++ rest) .nothing out =
      scan rest .nothing (.scalar (.integer n) :: out) := by
  refine scan_word ends ?_ (fun b hb => isWordByte_integer hb) (wordValue?_integer n)
  intro hnil
  have hvalue := wordValue?_integer n
  rw [hnil] at hvalue
  cases hvalue

end Scan

/-! ## Tokens -/

mutual

/-- The tokens of a value. -/
def tokens : Data → List Token
  | .list items => .openList :: itemTokens items
  | .table fields => .openTable :: fieldTokens fields
  | d => [.scalar d]

/-- The tokens of the items of a list and of its end. -/
def itemTokens : List Data → List Token
  | [] => [.closeList]
  | [d] => tokens d ++ [.closeList]
  | d :: rest => tokens d ++ .comma :: itemTokens rest

/-- The tokens of the fields of a table and of its end. -/
def fieldTokens : List (Option String × Data) → List Token
  | [] => [.closeTable]
  | [(name, d)] => .scalar (.string name) :: .colon :: (tokens d ++ [.closeTable])
  | (name, d) :: rest =>
    .scalar (.string name) :: .colon :: (tokens d ++ .comma :: fieldTokens rest)

end

section Scan

variable {rest : Bytes} {out : List Token}

theorem plain_of_mark {b : UInt8} {token : Token} (h : punctuation? b = some token) :
    isBlank b = false ∧ b ≠ 34 ∧ isWordByte b = false := by
  have hsame : ∀ n : UInt8, b.toNat = n.toNat → b = n := fun _ => UInt8.toNat.inj
  unfold punctuation? at h
  split at h
  · next hb => rw [hsame 91 hb]; decide
  · next hb => rw [hsame 93 hb]; decide
  · next hb => rw [hsame 123 hb]; decide
  · next hb => rw [hsame 125 hb]; decide
  · next hb => rw [hsame 44 hb]; decide
  · next hb => rw [hsame 58 hb]; decide
  · cases h

/-- A mark is a token. -/
theorem scan_mark {b : UInt8} {token : Token} (h : punctuation? b = some token) :
    scan (b :: rest) .nothing out = scan rest .nothing (token :: out) := by
  obtain ⟨hblank, hquote, hword⟩ := plain_of_mark h
  refine scan_cons ?_
  rw [scanByte, startToken, if_neg (by simp [hblank]), if_neg hquote, if_neg (by simp [hword]), h]
  rfl

/-- Before a mark, a value becomes its tokens if it does so wherever a word ends. -/
theorem scan_marked {d : Data} (h : ∀ (rest : Bytes) (out : List Token), Ends rest →
      scan (bytesOf (chars d) ++ rest) .nothing out = scan rest .nothing ((tokens d).reverse ++ out))
    {b : UInt8} {token : Token} (hmark : punctuation? b = some token) :
    scan (bytesOf (chars d) ++ b :: rest) .nothing out =
      scan rest .nothing ((tokens d ++ [token]).reverse ++ out) := by
  have ends : Ends (b :: rest) := by
    intro next hnext
    cases hnext
    exact (plain_of_mark hmark).2.2
  rw [h _ _ ends, scan_mark hmark, List.reverse_append]
  rfl

/-- The name of a field and the mark after it. -/
theorem scan_name (name : String) : scan (bytesOf (quote name) ++ 58 :: rest) .nothing out =
    scan rest .nothing ([.scalar (.string (some name)), .colon].reverse ++ out) := by
  rw [scan_quote, scan_mark (show punctuation? 58 = some .colon from rfl)]
  rfl

mutual

/-- **The text of a value becomes its tokens.** -/
theorem scan_chars : ∀ (d : Data), d.isPlain = true → ∀ (rest : Bytes) (out : List Token), Ends rest →
    scan (bytesOf (chars d) ++ rest) .nothing out = scan rest .nothing ((tokens d).reverse ++ out)
  | .null, _, _, _, ends => scan_word ends (by decide +kernel) (by decide +kernel) rfl
  | .bool true, _, _, _, ends => scan_word ends (by decide +kernel) (by decide +kernel) rfl
  | .bool false, _, _, _, ends => scan_word ends (by decide +kernel) (by decide +kernel) rfl
  | .integer n, _, _, _, ends => scan_integer ends n
  | .string (some text), _, _, _, _ => scan_quote text
  | .list items, plain, rest, out, _ => by
    rw [Data.isPlain] at plain
    have hopen : punctuation? 91 = some .openList := rfl
    show scan (91 :: (bytesOf (itemChars items) ++ rest)) .nothing out = _
    rw [scan_mark hopen, scan_itemChars items plain, tokens, List.reverse_cons, List.append_assoc]
    rfl
  | .table fields, plain, rest, out, _ => by
    rw [Data.isPlain] at plain
    have hopen : punctuation? 123 = some .openTable := rfl
    show scan (123 :: (bytesOf (fieldChars fields) ++ rest)) .nothing out = _
    rw [scan_mark hopen, scan_fieldChars fields plain, tokens, List.reverse_cons, List.append_assoc]
    rfl

/-- The texts of items become their tokens. -/
theorem scan_itemChars : ∀ (items : List Data), Data.arePlain items = true →
    ∀ (rest : Bytes) (out : List Token), scan (bytesOf (itemChars items) ++ rest) .nothing out =
      scan rest .nothing ((itemTokens items).reverse ++ out)
  | [], _, _, _ => scan_mark (show punctuation? 93 = some .closeList from rfl)
  | [d], plain, rest, out => by
    rw [Data.arePlain, Bool.and_eq_true] at plain
    rw [itemChars, bytesOf_append, List.append_assoc]
    exact scan_marked (scan_chars d plain.1) (show punctuation? 93 = some .closeList from rfl)
  | d :: e :: items, plain, rest, out => by
    rw [Data.arePlain, Bool.and_eq_true] at plain
    have hcomma : punctuation? 44 = some .comma := rfl
    have htokens : itemTokens (d :: e :: items) =
        tokens d ++ [.comma] ++ itemTokens (e :: items) := by
      rw [itemTokens, List.append_cons]
      simp
    rw [itemChars, bytesOf_append, List.append_assoc]
    · show scan (bytesOf (chars d) ++ 44 :: (bytesOf (itemChars (e :: items)) ++ rest)) .nothing out = _
      rw [scan_marked (scan_chars d plain.1) hcomma, scan_itemChars (e :: items) plain.2, htokens,
        ← List.append_assoc, ← List.reverse_append]
    · simp

/-- The texts of fields become their tokens. -/
theorem scan_fieldChars : ∀ (fields : List (Option String × Data)), Data.havePlain fields = true →
    ∀ (rest : Bytes) (out : List Token), scan (bytesOf (fieldChars fields) ++ rest) .nothing out =
      scan rest .nothing ((fieldTokens fields).reverse ++ out)
  | [], _, _, _ => scan_mark (show punctuation? 125 = some .closeTable from rfl)
  | [(some name, d)], plain, rest, out => by
    simp only [Data.havePlain, Bool.and_eq_true] at plain
    have hclose : punctuation? 125 = some .closeTable := rfl
    rw [fieldChars, bytesOf_append, List.append_assoc, bytesOf_cons, bytesOf_append]
    show scan (bytesOf (quote name) ++ 58 :: (bytesOf (chars d) ++ [125] ++ rest)) .nothing out = _
    rw [scan_name, List.append_assoc]
    refine (scan_marked (scan_chars d plain.1.2) hclose).trans ?_
    rw [← List.append_assoc, ← List.reverse_append, fieldTokens]
    rfl
  | (some name, d) :: e :: fields, plain, rest, out => by
    rw [Data.havePlain, Bool.and_eq_true, Bool.and_eq_true] at plain
    have hcomma : punctuation? 44 = some .comma := rfl
    have htokens : fieldTokens ((some name, d) :: e :: fields) =
        [.scalar (.string (some name)), .colon] ++ (tokens d ++ [.comma]) ++
          fieldTokens (e :: fields) := by
      rw [fieldTokens, List.append_assoc, ← List.append_cons]
      · rfl
      · simp
    rw [fieldChars, bytesOf_append, List.append_assoc, bytesOf_cons, bytesOf_append]
    · show scan (bytesOf (quote name) ++ 58 :: (bytesOf (chars d) ++
        44 :: bytesOf (fieldChars (e :: fields)) ++ rest)) .nothing out = _
      rw [scan_name, List.append_assoc]
      refine (scan_marked (scan_chars d plain.1.2) hcomma).trans ?_
      refine (scan_fieldChars (e :: fields) plain.2 rest _).trans ?_
      simp only [htokens, List.reverse_append, List.append_assoc]
    · simp

end

end Scan

/-! ## Values -/

section Run

variable {m : Machine} {token : Token} {rest : List Token} {stack : List Frame}

theorem run_cons {m' : Machine} (h : m.step token = some m') : run (token :: rest) m = run rest m' := by
  rw [run, h]
  rfl

/-- A value may stand here. -/
def Machine.Wants (m : Machine) : Prop := m.expect = .value ∨ m.expect = .valueOrClose

/-- What begins a value is taken where a value may stand. -/
theorem step_of_wants (h : m.Wants) (hclose : token ≠ .closeList) : m.step token = m.begin token := by
  obtain ⟨stack, expect, result⟩ := m
  rcases h with rfl | rfl
  · rfl
  · cases token <;> first | rfl | exact absurd rfl hclose

/-- The name of a field leads to the place of its value. -/
theorem run_name {fields : List (Option String × Data)} {expect : Expect} {name : Option String}
    (h : expect = .nameOrClose ∨ expect = .name) :
    run (.scalar (.string name) :: .colon :: rest) ⟨.table fields none :: stack, expect, .null⟩ =
      run rest ⟨.table fields name :: stack, .value, .null⟩ := by
  rcases h with rfl | rfl <;> rfl

mutual

/-- **The tokens of a value lead from any place where one may stand to the place after it.** -/
theorem run_tokens : ∀ (d : Data) (m : Machine) (rest : List Token), m.Wants →
    run (tokens d ++ rest) m = run rest (Machine.complete d m.stack)
  | .null, _, _, wants => run_cons (step_of_wants wants (by simp))
  | .bool _, _, _, wants => run_cons (step_of_wants wants (by simp))
  | .integer _, _, _, wants => run_cons (step_of_wants wants (by simp))
  | .other _, _, _, wants => run_cons (step_of_wants wants (by simp))
  | .string _, _, _, wants => run_cons (step_of_wants wants (by simp))
  | .list items, m, rest, wants => by
    rw [tokens, List.cons_append, run_cons (step_of_wants wants (by simp))]
    exact run_itemTokens items [] .valueOrClose m.stack rest (Or.inl rfl)
  | .table fields, m, rest, wants => by
    rw [tokens, List.cons_append, run_cons (step_of_wants wants (by simp))]
    exact run_fieldTokens fields [] .nameOrClose m.stack rest (Or.inl rfl)

/-- The tokens of items fill an open list, after those it has, and close it. -/
theorem run_itemTokens : ∀ (items done : List Data) (expect : Expect) (stack : List Frame)
    (rest : List Token), (expect = .valueOrClose ∨ expect = .value ∧ items ≠ []) →
    run (itemTokens items ++ rest) ⟨.list done :: stack, expect, .null⟩ =
      run rest (Machine.complete (.list (done.reverse ++ items)) stack)
  | [], done, expect, stack, rest, hexpect => by
    obtain rfl : expect = .valueOrClose := hexpect.elim id fun h => absurd rfl h.2
    rw [List.append_nil]
    exact run_cons rfl
  | [d], done, expect, stack, rest, hexpect => by
    have wants : Machine.Wants ⟨.list done :: stack, expect, .null⟩ :=
      hexpect.elim Or.inr fun h => Or.inl h.1
    have hclose : Machine.step ⟨.list (d :: done) :: stack, .separator, .null⟩ .closeList =
        some (Machine.complete (.list (d :: done).reverse) stack) := rfl
    rw [itemTokens, List.append_assoc, run_tokens d _ _ wants]
    refine (run_cons hclose).trans ?_
    rw [List.reverse_cons]
    rfl
  | d :: e :: items, done, expect, stack, rest, hexpect => by
    have wants : Machine.Wants ⟨.list done :: stack, expect, .null⟩ :=
      hexpect.elim Or.inr fun h => Or.inl h.1
    have htokens : itemTokens (d :: e :: items) = tokens d ++ .comma :: itemTokens (e :: items) := by
      rw [itemTokens]
      simp
    have hcomma : Machine.step ⟨.list (d :: done) :: stack, .separator, .null⟩ .comma =
        some ⟨.list (d :: done) :: stack, .value, .null⟩ := rfl
    rw [htokens, List.append_assoc, run_tokens d _ _ wants]
    refine (run_cons hcomma).trans ?_
    refine (run_itemTokens (e :: items) (d :: done) .value stack rest (Or.inr ⟨rfl, by simp⟩)).trans ?_
    rw [List.reverse_cons, List.append_assoc]
    rfl

/-- The tokens of fields fill an open table, after those it has, and close it. -/
theorem run_fieldTokens : ∀ (fields done : List (Option String × Data)) (expect : Expect)
    (stack : List Frame) (rest : List Token),
    (expect = .nameOrClose ∨ expect = .name ∧ fields ≠ []) →
    run (fieldTokens fields ++ rest) ⟨.table done none :: stack, expect, .null⟩ =
      run rest (Machine.complete (.table (done.reverse ++ fields)) stack)
  | [], done, expect, stack, rest, hexpect => by
    obtain rfl : expect = .nameOrClose := hexpect.elim id fun h => absurd rfl h.2
    rw [List.append_nil]
    exact run_cons rfl
  | [(name, d)], done, expect, stack, rest, hexpect => by
    have hclose : Machine.step ⟨.table ((name, d) :: done) none :: stack, .separator, .null⟩
        .closeTable = some (Machine.complete (.table ((name, d) :: done).reverse) stack) := rfl
    rw [fieldTokens, List.cons_append, List.cons_append, run_name (hexpect.imp_right And.left),
      List.append_assoc, run_tokens d _ _ (Or.inl rfl)]
    refine (run_cons hclose).trans ?_
    rw [List.reverse_cons]
    rfl
  | (name, d) :: e :: fields, done, expect, stack, rest, hexpect => by
    have htokens : fieldTokens ((name, d) :: e :: fields) = .scalar (.string name) :: .colon ::
        (tokens d ++ .comma :: fieldTokens (e :: fields)) := by
      rw [fieldTokens]
      simp
    have hcomma : Machine.step ⟨.table ((name, d) :: done) none :: stack, .separator, .null⟩ .comma =
        some ⟨.table ((name, d) :: done) none :: stack, .name, .null⟩ := rfl
    rw [htokens, List.cons_append, List.cons_append, run_name (hexpect.imp_right And.left),
      List.append_assoc, run_tokens d _ _ (Or.inl rfl)]
    refine (run_cons hcomma).trans ?_
    refine (run_fieldTokens (e :: fields) ((name, d) :: done) .name stack rest
      (Or.inr ⟨rfl, by simp⟩)).trans ?_
    rw [List.reverse_cons, List.append_assoc]
    rfl

end

end Run

/-- **Written data is read back.** -/
theorem parse?_write {d : Data} (plain : d.isPlain = true) :
    parse? (Bytes.ofText (write d)) = some d := by
  have htokens : tokens? (Bytes.ofText (write d)) = some (tokens d) := by
    have hscan := scan_chars d plain [] [] (fun b hb => by cases hb)
    rw [List.append_nil, List.append_nil] at hscan
    rw [tokens?, write, ofText_ofList, hscan, scan, List.reverse_reverse]
  have hrun : run (tokens d) {} = some (Machine.complete d []) := by
    have h := run_tokens d {} [] (Or.inl rfl)
    rwa [List.append_nil] at h
  simp only [parse?, htokens, hrun, Option.bind_eq_bind, Option.bind_some]
  rfl

end Json

end TransparencyLog
