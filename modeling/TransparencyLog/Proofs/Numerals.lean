import TransparencyLog.Text.Blank
import TransparencyLog.Text.Decimal

/-!
# Numbers in text

Sizes, indices and times travel in decimal. What is written is read back, and it has no blanks that
could fall away before it is read.

* `Blank.trim_eq_self`: texts without blanks stay as they are;
* `Decimal.natural?_eq_some_iff`, `Decimal.Writes`, **`Decimal.int64?_eq_some_iff`**: which texts are read
  as a number;
* `Decimal.uint64?_toString`, `Decimal.int64?_toString`: numbers are read back.
-/

namespace TransparencyLog

theorem Blank.trim_eq_self {text : String} (h : ∀ c ∈ text.toList, isBlank c = false) :
    trim text = text := by
  have hdrop : ∀ cs : List Char, (∀ c ∈ cs, isBlank c = false) → cs.dropWhile isBlank = cs := by
    intro cs hcs
    cases cs with
    | nil => rfl
    | cons c cs => rw [List.dropWhile_cons, hcs c List.mem_cons_self]; rfl
  have hreverse : ∀ c ∈ text.toList.reverse, isBlank c = false :=
    fun c hc => h c (List.mem_reverse.mp hc)
  rw [trim, hdrop _ h, hdrop _ hreverse, List.reverse_reverse, String.ofList_toList]

/-! ## Decimal -/

namespace Decimal

variable {c : Char} {n bound : Nat}

theorem isDigit_bounds (h : c.isDigit = true) : 48 ≤ c.toNat ∧ c.toNat ≤ 57 := by
  simp only [Char.isDigit, Bool.and_eq_true, decide_eq_true_eq] at h
  exact ⟨UInt32.le_iff_toNat_le.mp h.1, UInt32.le_iff_toNat_le.mp h.2⟩

theorem digit?_eq_some_iff {d : Nat} : digit? c = some d ↔ c.isDigit = true ∧ c.toNat - 48 = d := by
  have hdigit : ('0' ≤ c ∧ c ≤ '9') ↔ c.isDigit = true := by
    simp only [Char.isDigit, Bool.and_eq_true, decide_eq_true_eq]
    exact Iff.rfl
  rw [← hdigit, digit?]
  by_cases h : '0' ≤ c ∧ c ≤ '9'
  · simp [h]
  · rw [if_neg h]
    simp only [reduceCtorEq, false_iff]
    exact fun h' => h h'.1

/-- A character that is no digit spoils all that is read with it. -/
theorem foldl_digits_eq_some_iff {digits : List Char} {start : Nat} :
    digits.foldl (fun n c => n.bind fun n => (digit? c).map fun d => 10 * n + d) (some start) = some n ↔
      (∀ c ∈ digits, c.isDigit = true) ∧ Nat.ofDigitChars 10 digits start = n := by
  induction digits generalizing start with
  | nil => simp [Nat.ofDigitChars]
  | cons c digits ih =>
    rw [List.foldl_cons, List.forall_mem_cons, Nat.ofDigitChars_cons, Option.bind_some]
    cases hread : digit? c with
    | none =>
      have hnone : ∀ rest : List Char, rest.foldl
          (fun n c => n.bind fun n => (digit? c).map fun d => 10 * n + d) none = none := by
        intro rest
        induction rest with
        | nil => rfl
        | cons _ rest ih => exact ih
      have hnot : ¬ c.isDigit = true := by
        intro hdigit
        rw [digit?_eq_some_iff.mpr ⟨hdigit, rfl⟩] at hread
        cases hread
      rw [Option.map_none, hnone]
      exact iff_of_false (by simp) fun h => hnot h.1.1
    | some d =>
      obtain ⟨hdigit, rfl⟩ := digit?_eq_some_iff.mp hread
      rw [Option.map_some, ih]
      exact ⟨fun h => ⟨⟨hdigit, h.1⟩, h.2⟩, fun h => ⟨h.1.2, h.2⟩⟩

/-- **One or more digits** are read as the number they write. -/
theorem natural?_eq_some_iff {digits : List Char} : natural? digits = some n ↔
    digits ≠ [] ∧ (∀ c ∈ digits, c.isDigit = true) ∧ Nat.ofDigitChars 10 digits 0 = n := by
  rw [natural?, ← foldl_digits_eq_some_iff]
  cases digits <;> simp

/-- The digits of a number are read as that number. -/
theorem natural?_toDigits (n : Nat) : natural? (Nat.toDigits 10 n) = some n :=
  natural?_eq_some_iff.mpr ⟨Nat.toDigits_ne_nil,
    fun _ hc => Nat.isDigit_of_mem_toDigits (by omega) (by omega) hc, Nat.ofDigitChars_ten_toDigits⟩

theorem toList_toString (n : Nat) : (toString n).toList = Nat.toDigits 10 n := by
  rw [Nat.toString_eq_ofList_toDigits, String.toList_ofList]

/-- The first character of a number is a digit. -/
theorem exists_toDigits (n : Nat) : ∃ c rest, Nat.toDigits 10 n = c :: rest ∧ c.isDigit = true := by
  cases h : Nat.toDigits 10 n with
  | nil => exact absurd h Nat.toDigits_ne_nil
  | cons c rest =>
    refine ⟨c, rest, rfl, Nat.isDigit_of_mem_toDigits (b := 10) (n := n) (by omega) (by omega) ?_⟩
    rw [h]
    exact List.mem_cons_self

theorem unsigned?_toString (h : n < bound) : unsigned? bound (toString n) = some n := by
  obtain ⟨c, rest, hdigits, hc⟩ := exists_toDigits n
  have hnatural := natural?_toDigits n
  have hplus : c ≠ '+' := by
    rintro rfl
    cases hc
  rw [hdigits] at hnatural
  unfold unsigned?
  rw [toList_toString, hdigits]
  split
  · next heq => exact absurd (List.cons.inj heq).1 hplus
  · simp [hnatural, h]

/-- **A size or an index is read back.** -/
theorem uint64?_toString (n : UInt64) : uint64? (toString n.toNat) = some n := by
  rw [uint64?, unsigned?_toString n.toNat_lt, Option.map_some, UInt64.ofNat_toNat]

/-- A written number consists of digits, after a sign if it is negative. -/
theorem toString_int_cases (n : Int) : (0 ≤ n ∧ (toString n).toList = Nat.toDigits 10 n.natAbs) ∨
    (n < 0 ∧ (toString n).toList = '-' :: Nat.toDigits 10 n.natAbs) := by
  cases n with
  | ofNat n => exact Or.inl ⟨Int.natCast_nonneg n, toList_toString n⟩
  | negSucc n =>
    refine Or.inr ⟨Int.negSucc_lt_zero n, ?_⟩
    show ("-" ++ toString (n + 1)).toList = _
    rw [String.toList_append, toList_toString]
    rfl

theorem mem_toString_int {n : Int} (h : c ∈ (toString n).toList) : c = '-' ∨ c.isDigit = true := by
  have hdigit : c ∈ Nat.toDigits 10 n.natAbs → c.isDigit = true :=
    Nat.isDigit_of_mem_toDigits (by omega) (by omega)
  rcases toString_int_cases n with ⟨-, heq⟩ | ⟨-, heq⟩
  · rw [heq] at h
    exact Or.inr (hdigit h)
  · rw [heq] at h
    exact (List.mem_cons.mp h).imp_right hdigit

/-- A text writes a number: one or more digits, after a sign if it has one. Leading zeros count for
nothing. -/
def Writes (text : String) (n : Int) : Prop :=
  ∃ digits : List Char, digits ≠ [] ∧ (∀ c ∈ digits, c.isDigit = true) ∧
    ((text.toList = digits ∨ text.toList = '+' :: digits) ∧ n = Nat.ofDigitChars 10 digits 0 ∨
      text.toList = '-' :: digits ∧ n = -(Nat.ofDigitChars 10 digits 0 : Int))

theorem map_natural?_eq_some_iff {digits : List Char} {sign : Nat → Int} {n : Int} :
    (natural? digits).map sign = some n ↔ digits ≠ [] ∧ (∀ c ∈ digits, c.isDigit = true) ∧
      sign (Nat.ofDigitChars 10 digits 0) = n := by
  simp only [Option.map_eq_some_iff, natural?_eq_some_iff]
  constructor
  · rintro ⟨_, ⟨hne, hdigits, rfl⟩, h⟩
    exact ⟨hne, hdigits, h⟩
  · rintro ⟨hne, hdigits, h⟩
    exact ⟨_, ⟨hne, hdigits, rfl⟩, h⟩

/-- **The texts that are read as a number** write it. -/
theorem integer?_eq_some_iff {text : String} {n : Int} : integer? text = some n ↔ Writes text n := by
  -- A sign is no digit, so the digits of a text begin where its first character says.
  have hsign {digits : List Char} (hdigits : ∀ c ∈ digits, c.isDigit = true) {c : Char}
      {rest : List Char} (h : digits = c :: rest) : c ≠ '-' ∧ c ≠ '+' := by
    have hc := hdigits c (by rw [h]; exact List.mem_cons_self)
    constructor <;> (rintro rfl; cases hc)
  unfold integer?
  split
  · next rest heq =>
    rw [map_natural?_eq_some_iff]
    constructor
    · rintro ⟨hne, hdigits, h⟩
      exact ⟨rest, hne, hdigits, Or.inr ⟨heq, h.symm⟩⟩
    · rintro ⟨digits, hne, hdigits, ⟨h | h, -⟩ | ⟨h, hn⟩⟩
      · exact absurd rfl (hsign hdigits (h.symm.trans heq)).1
      · cases heq.symm.trans h
      · cases heq.symm.trans h
        exact ⟨hne, hdigits, hn.symm⟩
  · next rest heq =>
    rw [map_natural?_eq_some_iff]
    constructor
    · rintro ⟨hne, hdigits, h⟩
      exact ⟨rest, hne, hdigits, Or.inl ⟨Or.inr heq, h.symm⟩⟩
    · rintro ⟨digits, hne, hdigits, ⟨h | h, hn⟩ | ⟨h, -⟩⟩
      · exact absurd rfl (hsign hdigits (h.symm.trans heq)).2
      · cases heq.symm.trans h
        exact ⟨hne, hdigits, hn.symm⟩
      · cases heq.symm.trans h
  · next hminus hplus =>
    rw [map_natural?_eq_some_iff]
    constructor
    · rintro ⟨hne, hdigits, h⟩
      exact ⟨text.toList, hne, hdigits, Or.inl ⟨Or.inl rfl, h.symm⟩⟩
    · rintro ⟨digits, hne, hdigits, ⟨h | h, hn⟩ | ⟨h, -⟩⟩
      · rw [h]
        exact ⟨hne, hdigits, hn.symm⟩
      · exact absurd h (hplus digits)
      · exact absurd h (hminus digits)

/-- A text writes one number at most. -/
theorem Writes.unique {text : String} {m n : Int} (h : Writes text m) (h' : Writes text n) : m = n := by
  rw [← integer?_eq_some_iff] at h h'
  exact Option.some.inj (h.symm.trans h')

/-- A written number writes that number. -/
theorem writes_toString (n : Int) : Writes (toString n) n := by
  refine ⟨Nat.toDigits 10 n.natAbs, Nat.toDigits_ne_nil,
    fun c hc => Nat.isDigit_of_mem_toDigits (by omega) (by omega) hc, ?_⟩
  rw [Nat.ofDigitChars_ten_toDigits]
  rcases toString_int_cases n with ⟨hsign, heq⟩ | ⟨hsign, heq⟩
  · exact Or.inl ⟨Or.inl heq, by omega⟩
  · exact Or.inr ⟨heq, by omega⟩

/-- **The texts that are read as a time** write it. -/
theorem int64?_eq_some_iff {text : String} {time : Int64} :
    int64? text = some time ↔ Writes text time.toInt := by
  have hmin := Int64.le_iff_toInt_le.mp (Int64.minValue_le time)
  have hmax := Int64.le_iff_toInt_le.mp (Int64.le_maxValue time)
  rw [int64?, ← integer?_eq_some_iff]
  simp only [Option.map_eq_some_iff, Option.filter_eq_some_iff, Bool.and_eq_true, decide_eq_true_eq]
  constructor
  · rintro ⟨n, ⟨hn, hrange⟩, rfl⟩
    have hhigh : n < 2 ^ 63 := by
      have := hrange.2
      rw [Int64.toInt_maxValue] at this
      omega
    rw [hn, Int64.toInt_ofInt_of_le hrange.1 hhigh]
  · intro hn
    exact ⟨time.toInt, ⟨hn, hmin, hmax⟩, Int64.ofInt_toInt time⟩

/-- **A time is read back.** -/
theorem int64?_toString (time : Int64) : int64? (toString time.toInt) = some time :=
  int64?_eq_some_iff.mpr (writes_toString time.toInt)

end Decimal

end TransparencyLog
