import Mathlib.Data.List.Basic
import Mathlib.Logic.Equiv.Defs
import TransparencyLog.Proofs.Framing
import TransparencyLog.Proofs.Outcome

/-!
# Every framed string stands for one value

A leaf is hashed as it is framed, so a string must never stand for two leaves. Framing is exact: what is
read is what would be written, byte for byte, so nothing that a reader accepts could have been written
differently. No framed string begins another, since the first two bytes of a field say how far it goes.

* `Framing.field_append_inj`, **`Framing.flatMap_field_inj`**: framed fields end at one place;
* `PrefixCode`, `PrefixCode.transport`: codes of which no word begins another;
* **`framed_exact`**: records and nodes are written in such a code.
-/

namespace TransparencyLog

namespace Framing

/-! ## Where fields end -/

/-- Framed fields at the front of the same bytes are the same field. -/
theorem field_append_inj {f g s t : Bytes} (hf : f.length ≤ maxField) (hg : g.length ≤ maxField)
    (h : field f ++ s = field g ++ t) : f = g ∧ s = t := by
  rw [field, field, List.append_assoc, List.append_assoc] at h
  obtain ⟨hword, hrest⟩ := List.append_inj h (by simp)
  have hnumber := congrArg Bytes.number hword
  have hmax : Nat.pow 256 2 = maxField + 1 := rfl
  rw [Bytes.number_littleEndian, Bytes.number_littleEndian, Nat.mod_eq_of_lt (by omega),
    Nat.mod_eq_of_lt (by omega)] at hnumber
  exact List.append_inj hrest hnumber

/-- **As many framed fields at the front of the same bytes are the same fields**, so they end at the same
place. -/
theorem flatMap_field_inj {fields others : List Bytes} {s t : Bytes}
    (hfields : ∀ f ∈ fields, f.length ≤ maxField) (hothers : ∀ f ∈ others, f.length ≤ maxField)
    (hlength : fields.length = others.length)
    (h : fields.flatMap field ++ s = others.flatMap field ++ t) : fields = others ∧ s = t := by
  induction fields generalizing others with
  | nil =>
    obtain rfl := List.length_eq_zero_iff.mp hlength.symm
    exact ⟨rfl, h⟩
  | cons f fields ih =>
    cases others with
    | nil => cases hlength
    | cons g others =>
      rw [List.forall_mem_cons] at hfields hothers
      rw [List.flatMap_cons, List.flatMap_cons, List.append_assoc, List.append_assoc] at h
      obtain ⟨rfl, hrest⟩ := field_append_inj hfields.1 hothers.1 h
      obtain ⟨rfl, htail⟩ := ih hfields.2 hothers.2 (Nat.succ.inj hlength) hrest
      exact ⟨rfl, htail⟩

end Framing

/-! ## Codes -/

/-- A way to write values as bytes of which no word begins another. Exactly the values that fit are
written; what is read as a value is exactly what is written for it, so both ways round nothing changes; a
word cut off, or with something behind it, is malformed. -/
structure PrefixCode {α : Type} (fits : α → Prop) (encode : α → Except LogError Bytes)
    (decode : Bytes → Except LogError α) : Prop where
  written_iff : ∀ a, (∃ word, encode a = .ok word) ↔ fits a
  read_iff : ∀ word a, decode word = .ok a ↔ encode a = .ok word
  malformed : ∀ a word other, encode a = .ok word → other <+: word ∨ word <+: other → other ≠ word →
    ∃ fault, decode other = .error (.malformedRecord fault)
  apart : ∀ a b word other, encode a = .ok word → encode b = .ok other → a ≠ b →
    ¬ word <+: other ∧ ¬ other <+: word

/-- Values that stand for those of a code are written in the same code. -/
theorem PrefixCode.transport {α β : Type} {fits : α → Prop} {encode : α → Except LogError Bytes}
    {decode : Bytes → Except LogError α} (h : PrefixCode fits encode decode) (parts : β ≃ α) :
    PrefixCode (fun b => fits (parts b)) (fun b => encode (parts b))
      fun word => (decode word).map parts.symm where
  written_iff b := h.written_iff (parts b)
  read_iff word b := by
    rw [map_eq_ok_iff, ← h.read_iff]
    constructor
    · rintro ⟨a, ha, rfl⟩
      rw [ha, Equiv.apply_symm_apply]
    · exact fun hb => ⟨_, hb, parts.symm_apply_apply b⟩
  malformed b word other hword hpart hne := by
    obtain ⟨fault, herror⟩ := h.malformed _ word other hword hpart hne
    exact ⟨fault, map_eq_error_iff.mpr herror⟩
  apart b b' word other hword hother hne :=
    h.apart _ _ word other hword hother fun heq => hne (parts.injective heq)

namespace Framing

/-- Framed pairs of which one begins the other are the same. -/
theorem pair_eq_of_isPrefix {a b : Bytes × Bytes} {word other : Bytes}
    (hword : encode [a.1, a.2] = .ok word) (hother : encode [b.1, b.2] = .ok other)
    (hbegins : word <+: other) : a = b ∧ word = other := by
  obtain ⟨tail, rfl⟩ := hbegins
  obtain ⟨hfits, rfl⟩ := encode_eq_ok_iff.mp hword
  obtain ⟨hfits', heq⟩ := encode_eq_ok_iff.mp hother
  rw [← List.append_nil (List.flatMap field [b.1, b.2])] at heq
  obtain ⟨hfields, rfl⟩ := flatMap_field_inj hfits hfits' rfl heq
  exact ⟨by simpa [Prod.ext_iff] using hfields, (List.append_nil _).symm⟩

/-- **Pairs are framed in a code.** -/
theorem prefixCode_pair :
    PrefixCode (fun pair : Bytes × Bytes => pair.1.length ≤ maxField ∧ pair.2.length ≤ maxField)
      (fun pair => encode [pair.1, pair.2]) decodePair where
  written_iff pair :=
    ⟨fun ⟨_, h⟩ => (encode_pair_eq_ok_iff.mp h).1, fun ⟨h₁, h₂⟩ => ⟨_, encode_pair h₁ h₂⟩⟩
  read_iff word pair := decodePair_eq_ok_iff
  malformed pair word other hword hpart hne := by
    cases hread : decodePair other with
    | error e =>
      obtain ⟨fault, rfl⟩ := malformed_of_decodePair hread
      exact ⟨fault, rfl⟩
    | ok found =>
      have hother := decodePair_eq_ok_iff.mp hread
      rcases hpart with hbegins | hbegins
      · exact absurd (pair_eq_of_isPrefix hother hword hbegins).2 hne
      · exact absurd (pair_eq_of_isPrefix hword hother hbegins).2.symm hne
  apart a b word other hword hother hne :=
    ⟨fun hbegins => hne (pair_eq_of_isPrefix hword hother hbegins).1,
      fun hbegins => hne (pair_eq_of_isPrefix hother hword hbegins).1.symm⟩

end Framing

/-- A record is its key and its value. -/
def Record.parts : Record ≃ Bytes × Bytes where
  toFun record := (record.key, record.value)
  invFun := fun (key, value) => ⟨key, value⟩
  left_inv _ := rfl
  right_inv _ := rfl

/-- A node is its digest and its data. -/
def Node.parts : Node ≃ Bytes × Bytes where
  toFun node := (node.digest, node.value)
  invFun := fun (digest, value) => ⟨digest, value⟩
  left_inv _ := rfl
  right_inv _ := rfl

/-- **Records and nodes are framed in a code** of which no word begins another. The ones that are written
have two fields of at most 65535 bytes. -/
theorem framed_exact :
    PrefixCode (fun record : Record => record.key.length ≤ 65535 ∧ record.value.length ≤ 65535)
        Record.encode Record.decode ∧
      PrefixCode (fun node : Node => node.digest.length ≤ 65535 ∧ node.value.length ≤ 65535)
        Node.encode Node.decode :=
  ⟨Framing.prefixCode_pair.transport Record.parts, Framing.prefixCode_pair.transport Node.parts⟩

end TransparencyLog
