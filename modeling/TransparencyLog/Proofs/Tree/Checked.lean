import TransparencyLog.Proofs.Tree.Nodes
import TransparencyLog.Proofs.Tree.Positions

/-!
# Stored nodes read and written with words

A computation with words ends in two ways: it is stopped by a trap, or it comes to an outcome, which is a
value or the log's refusal. Nodes are read by offsets that are words, from whatever bytes a store has, and
nothing stops the reading.

* `Checked`, `ended`: computations that may be stopped, and those that were not;
* `Checked.word_bind`, **`Checked.bind_eq`**, `CheckedWrite.bind_eq`: one step after the other;
* `Framing.readFieldWords`, **`Framing.decodeWords_eq`**: fields at an offset;
* `Framing.sumWords`, `Framing.exists_sumWords`: the size of what is written;
* `nodeWords_eq`, `digestWords_eq`, `putNodeWords_eq`: the stored nodes.
-/

namespace TransparencyLog.Tree

/-! ## Computations that may be stopped -/

/-- A computation with words that may be stopped, and that the log may refuse. -/
abbrev Checked (α : Type) : Type := ExceptT LogError (Except Trap) α

/-- A computation that has come to its outcome. -/
def ended {α : Type} (outcome : Except LogError α) : Checked α := ExceptT.mk (.ok outcome)

/-- A computation that was stopped. -/
def stopped {α : Type} (trap : Trap) : Checked α := ExceptT.mk (.error trap)

/-- A write transaction with words. -/
abbrev CheckedWrite (α : Type) : Type := StateT Draft Checked α

/-- Reads what the transaction sees now. -/
def CheckedWrite.read {α : Type} (query : Snapshot → Checked α) : CheckedWrite α := fun draft => do
  return (← query draft.get?, draft)

/-- A transaction without words. -/
def CheckedWrite.lift {α : Type} (body : Write α) : CheckedWrite α := fun draft => ended (body draft)

section Steps

variable {α β : Type} {outcome : Except LogError α}

theorem Checked.word_bind {word : Except Trap α} {a : α} (h : word = .ok a) (next : α → Checked β) :
    ((liftM word : Checked α) >>= next) = next a := by
  rw [h]
  rfl

/-- **One step after the other.** If the first one ends, and what follows its value ends, then both end. -/
theorem Checked.bind_eq {first : Checked α} (h : first = ended outcome) {next : α → Checked β}
    {next' : α → Except LogError β} (h' : ∀ a, outcome = .ok a → next a = ended (next' a)) :
    (first >>= next) = ended (outcome >>= next') := by
  rw [h]
  cases outcome with
  | error e => rfl
  | ok a => exact h' a rfl

theorem Checked.map_ended (f : α → β) : f <$> ended outcome = ended (f <$> outcome) := by
  cases outcome <;> rfl

theorem CheckedWrite.bind_eq {first : CheckedWrite α} {first' : Write α} {draft : Draft}
    (h : first draft = ended (first' draft)) {next : α → CheckedWrite β} {next' : α → Write β}
    (h' : ∀ a draft', first' draft = .ok (a, draft') → next a draft' = ended (next' a draft')) :
    (first >>= next) draft = ended ((first' >>= next') draft) :=
  Checked.bind_eq h fun (a, draft') hok => h' a draft' hok

theorem CheckedWrite.word_bind {word : Except Trap α} {a : α} (h : word = .ok a)
    (next : α → CheckedWrite β) (draft : Draft) :
    ((liftM word : CheckedWrite α) >>= next) draft = next a draft := by
  rw [h]
  rfl

theorem CheckedWrite.read_eq {query : Snapshot → Checked α} {query' : Snapshot → Except LogError α}
    (h : ∀ view, query view = ended (query' view)) (draft : Draft) :
    CheckedWrite.read query draft = ended (Write.read query' draft) := by
  rw [CheckedWrite.read, Write.read, h]
  cases query' draft.get? <;> rfl

end Steps

end TransparencyLog.Tree

/-! ## Fields -/

namespace TransparencyLog.Framing

open TransparencyLog.Tree

/-- The bytes from one offset to another, if all of them are there. -/
def slice? (bytes : Bytes) (start stop : UInt64) : Option Bytes :=
  if start ≤ stop ∧ stop.toNat ≤ bytes.length then
    some ((bytes.drop start.toNat).take (stop.toNat - start.toNat))
  else none

/-- The number of bytes behind an offset. -/
def remaining (bytes : Bytes) (offset : UInt64) : Except Trap Nat :=
  if offset.toNat ≤ bytes.length then .ok (bytes.length - offset.toNat) else .error .wrapped

/-- Reads the field at an offset, and gives the offset behind it. -/
def readFieldWords (bytes : Bytes) (index : Nat) (offset : UInt64) : Checked (Bytes × UInt64) := do
  let start ← Word.add offset 2
  match slice? bytes offset start with
  | none => throw (.malformedRecord (.missingLength index))
  | some length => do
    let stop ← Word.add start (.ofNat (Bytes.number length))
    match slice? bytes start stop with
    | none => throw (.malformedRecord (.truncated index))
    | some field => return (field, stop)

/-- Reads `count` fields from an offset on, the first of them number `index`, and nothing after them. -/
def decodeWords (bytes : Bytes) (index : Nat) : Nat → UInt64 → Checked (List Bytes)
  | 0, offset =>
    if offset.toNat = bytes.length then return []
    else do throw (.malformedRecord (.trailing (← remaining bytes offset)))
  | count + 1, offset => do
    let (field, offset) ← readFieldWords bytes index offset
    let tail ← decodeWords bytes (index + 1) count offset
    return field :: tail

/-- The number of bytes of the written fields, added to those before. -/
def sumWords : UInt64 → List Bytes → Except Trap UInt64
  | total, [] => .ok total
  | total, field :: rest => do
    let size ← Word.add 2 (.ofNat field.length)
    sumWords (← Word.add total size) rest

/-- Writes fields into space that is counted first. -/
def encodeWords (fields : List Bytes) : Checked Bytes := do
  let _ ← sumWords 0 fields
  encode fields

section Fields

variable {bytes : Bytes} {index count : Nat} {offset start stop : UInt64} {fields : List Bytes}

theorem slice?_of_le (hstart : start.toNat ≤ stop.toNat) (hstop : stop.toNat ≤ bytes.length) :
    slice? bytes start stop = some ((bytes.drop start.toNat).take (stop.toNat - start.toNat)) :=
  if_pos ⟨UInt64.le_iff_toNat_le.mpr hstart, hstop⟩

theorem slice?_of_lt (h : bytes.length < stop.toNat) : slice? bytes start stop = none :=
  if_neg fun hle => absurd hle.2 (Nat.not_le.mpr h)

/-- The length in front of a field is small. -/
theorem number_le_maxField (low high : UInt8) : Bytes.number [low, high] ≤ maxField := by
  have hword := Bytes.number_lt [low, high]
  have hmax : Nat.pow 256 2 = maxField + 1 := rfl
  rw [List.length_cons, List.length_singleton, hmax] at hword
  exact Nat.le_of_lt_succ hword

/-- The length of a field is read from two bytes, and there are not two. -/
theorem readFieldWords_short (hshort : bytes.length < offset.toNat + 2)
    (hfits : offset.toNat + 2 < UInt64.size) :
    readFieldWords bytes index offset = ended (.error (.malformedRecord (.missingLength index))) := by
  have hstart : offset.toNat + (2 : UInt64).toNat < UInt64.size := hfits
  have hstart' : (offset + 2).toNat = offset.toNat + 2 := Word.toNat_add hstart
  rw [readFieldWords, Checked.word_bind (Word.add_eq hstart), slice?_of_lt (by omega)]
  rfl

/-- **A field at an offset** is read as it is from the bytes that begin there, or there are too few. -/
theorem readFieldWords_long (index : Nat) {low high : UInt8} {rest : Bytes}
    (hdrop : bytes.drop offset.toNat = low :: high :: rest)
    (hfits : offset.toNat + maxField + 2 < UInt64.size) : ∃ stop : UInt64,
      stop.toNat = offset.toNat + 2 + Bytes.number [low, high] ∧
      bytes.drop stop.toNat = rest.drop (Bytes.number [low, high]) ∧
      readFieldWords bytes index offset = ended (if rest.length < Bytes.number [low, high]
        then .error (.malformedRecord (.truncated index))
        else .ok (rest.take (Bytes.number [low, high]), stop)) := by
  have hlen : (bytes.drop offset.toNat).length = bytes.length - offset.toNat := List.length_drop
  rw [hdrop, List.length_cons, List.length_cons] at hlen
  have hword := number_le_maxField low high
  have hstart : offset.toNat + (2 : UInt64).toNat < UInt64.size := by
    change offset.toNat + 2 < _
    omega
  have hstart' : (offset + 2).toNat = offset.toNat + 2 := Word.toNat_add hstart
  have hlength : (bytes.drop offset.toNat).take ((offset + 2).toNat - offset.toNat) = [low, high] := by
    rw [hdrop, hstart', Nat.add_sub_cancel_left]
    rfl
  have hnumber : (UInt64.ofNat (Bytes.number [low, high])).toNat = Bytes.number [low, high] :=
    UInt64.toNat_ofNat_of_lt' (by omega)
  have hstop : (offset + 2).toNat + (UInt64.ofNat (Bytes.number [low, high])).toNat < UInt64.size := by
    omega
  have hstop' := Word.toNat_add hstop
  rw [hnumber, hstart'] at hstop'
  have hrest : bytes.drop (offset + 2).toNat = rest := by
    rw [hstart', ← List.drop_drop, hdrop]
    rfl
  refine ⟨_, hstop', by rw [hstop', ← hstart', ← List.drop_drop, hrest], ?_⟩
  rw [readFieldWords, Checked.word_bind (Word.add_eq hstart), slice?_of_le (by omega) (by omega), hlength]
  simp only [Checked.word_bind (Word.add_eq hstop)]
  rcases Nat.lt_or_ge rest.length (Bytes.number [low, high]) with hshort | hlong
  · rw [slice?_of_lt (by omega), if_pos hshort]
    rfl
  · rw [slice?_of_le (by omega) (by omega), if_neg (Nat.not_lt.mpr hlong), hrest, hstop', hstart',
      Nat.add_sub_cancel_left]
    rfl

/-- **Fields at an offset** are read as they are from the bytes that begin there. -/
theorem decodeWords_eq (hoffset : offset.toNat ≤ bytes.length)
    (hfits : offset.toNat + count * (maxField + 2) < UInt64.size) :
    decodeWords bytes index count offset =
      ended (decodeFrom index count (bytes.drop offset.toNat)) := by
  have hlen : (bytes.drop offset.toNat).length = bytes.length - offset.toNat := List.length_drop
  induction count generalizing index offset with
  | zero =>
    rw [decodeWords]
    by_cases hend : offset.toNat = bytes.length
    · rw [if_pos hend, hend, List.drop_length]
      rfl
    · have hremaining : remaining bytes offset = .ok (bytes.length - offset.toNat) := if_pos hoffset
      rw [if_neg hend, Checked.word_bind hremaining, ← hlen]
      obtain ⟨b, rest, hrest⟩ : ∃ b rest, bytes.drop offset.toNat = b :: rest :=
        List.exists_cons_of_length_pos (by omega)
      rw [hrest]
      rfl
  | succ count ih =>
    rw [Nat.succ_mul] at hfits
    rw [decodeWords]
    match hdrop : bytes.drop offset.toNat with
    | [] | [_] =>
      rw [hdrop] at hlen
      simp only [List.length_nil, List.length_singleton] at hlen
      rw [readFieldWords_short (by omega) (by omega)]
      rfl
    | low :: high :: rest =>
      obtain ⟨stop, hstop, hbehind, hread⟩ := readFieldWords_long index hdrop (by omega)
      have hword := number_le_maxField low high
      rw [hdrop, List.length_cons, List.length_cons] at hlen
      rw [hread, decodeFrom]
      by_cases hshort : rest.length < Bytes.number [low, high]
      · rw [if_pos hshort]
        simp only [if_pos hshort]
        rfl
      · have htail : decodeWords bytes (index + 1) count stop =
            ended (decodeFrom (index + 1) count (rest.drop (Bytes.number [low, high]))) := by
          rw [← hbehind]
          exact ih (by omega) (by omega) List.length_drop
        rw [if_neg hshort]
        simp only [if_neg hshort]
        change (decodeWords bytes (index + 1) count stop >>= fun tail =>
          return rest.take (Bytes.number [low, high]) :: tail) = _
        rw [htail]
        cases decodeFrom (index + 1) count (rest.drop (Bytes.number [low, high])) <;> rfl

/-- Fields that fit are counted without a trap. -/
theorem exists_sumWords (total : UInt64) (h : ∀ f ∈ fields, f.length ≤ maxField)
    (hfits : total.toNat + fields.length * (maxField + 2) < UInt64.size) :
    ∃ size, sumWords total fields = .ok size := by
  induction fields generalizing total with
  | nil => exact ⟨total, rfl⟩
  | cons f rest ih =>
    rw [List.length_cons, Nat.succ_mul] at hfits
    have hmax := h f List.mem_cons_self
    have hlength : (UInt64.ofNat f.length).toNat = f.length := UInt64.toNat_ofNat_of_lt' (by omega)
    have hsize : (2 : UInt64).toNat + (UInt64.ofNat f.length).toNat < UInt64.size := by
      change 2 + _ < _
      omega
    have hsize' : (2 + UInt64.ofNat f.length).toNat = 2 + f.length := by
      rw [Word.toNat_add hsize, hlength]
      rfl
    have htotal : total.toNat + (2 + UInt64.ofNat f.length).toNat < UInt64.size := by omega
    have htotal' := Word.toNat_add htotal
    rw [sumWords, Word.add_eq hsize, ok_bind, Word.add_eq htotal, ok_bind]
    exact ih _ (fun f hf => h f (List.mem_cons_of_mem _ hf)) (by omega)

end Fields

end TransparencyLog.Framing

/-! ## Nodes -/

namespace TransparencyLog.Tree

/-- Reads the record of a node. -/
def decodeNodeWords (bytes : Bytes) : Checked Node := do
  match ← Framing.decodeWords bytes 0 2 0 with
  | [digest, value] => return ⟨digest, value⟩
  | _ => throw (.malformedRecord (.missingLength 0))

/-- The stored node `index` of a level. -/
def nodeWords (view : Snapshot) (level : UInt32) (index : UInt64) : Checked Node := do
  let bytes ← view.fetch (bucket level.toNat) (nodeKey index.toNat)
  decodeNodeWords bytes

/-- The digest of the node `index` of a level. -/
def digestWords (view : Snapshot) (level : UInt32) (index : UInt64) : Checked Digest := do
  match Digest.ofBytes? (← nodeWords view level index).digest with
  | some d => return d
  | none => throw (.malformedRecord (.nodeDigestLength level.toNat index.toNat))

/-- Stores the node `index` of a level. -/
def putNodeWords (level : UInt32) (index : UInt64) (hash : Digest) (value : Bytes) :
    CheckedWrite Unit := do
  let node ← Node.make hash.bytes value
  let encoded ← Framing.encodeWords [node.digest, node.value]
  CheckedWrite.lift (Write.put (bucket level.toNat) (nodeKey index.toNat) encoded)

section Nodes

variable {view : Snapshot} {level : UInt32} {index : UInt64}

theorem decodeNodeWords_eq (bytes : Bytes) : decodeNodeWords bytes = ended (Node.decode bytes) := by
  have hread : Framing.decodeWords bytes 0 2 0 = ended (Framing.decodeFrom 0 2 bytes) :=
    Framing.decodeWords_eq (Nat.zero_le _) (by decide)
  rw [decodeNodeWords, hread, Node.decode, Framing.decodePair]
  cases Framing.decodeFrom 0 2 bytes with
  | error e => rfl
  | ok fields => rcases fields with _ | ⟨hash, _ | ⟨value, _ | ⟨more, rest⟩⟩⟩ <;> rfl

theorem nodeWords_eq : nodeWords view level index = ended (node view level.toNat index.toNat) := by
  rw [nodeWords, node]
  exact Checked.bind_eq rfl fun bytes _ => decodeNodeWords_eq bytes

theorem digestWords_eq :
    digestWords view level index = ended (digest view level.toNat index.toNat) := by
  rw [digestWords, digest]
  refine Checked.bind_eq nodeWords_eq fun node _ => ?_
  cases Digest.ofBytes? node.digest <;> rfl

theorem putNodeWords_eq (hash : Digest) (value : Bytes) (draft : Draft) :
    putNodeWords level index hash value draft =
      ended (putNode level.toNat index.toNat hash value draft) := by
  have hmax := digest_fits hash
  rcases Nat.lt_or_ge Framing.maxField value.length with hlong | hfits
  · have hmake : Node.make hash.bytes value = .error (.recordTooLarge value.length) := by
      rw [Node.make, Framing.checkField_eq hmax, ok_bind, Framing.checkField, if_pos hlong]
      rfl
    rw [putNodeWords, putNode, hmake]
    rfl
  · have hmake : Node.make hash.bytes value = .ok ⟨hash.bytes, value⟩ := by
      rw [Node.make, Framing.checkField_eq hmax, Framing.checkField_eq hfits]
      rfl
    have hfields : ∀ f ∈ [hash.bytes, value], f.length ≤ Framing.maxField :=
      List.forall_mem_cons.mpr ⟨hmax, List.forall_mem_singleton.mpr hfits⟩
    obtain ⟨size, hsize⟩ := Framing.exists_sumWords 0 hfields
      (show 0 + 2 * (Framing.maxField + 2) < UInt64.size by decide)
    have hencode : Framing.encodeWords [hash.bytes, value] = ended (.ok (Framing.pair hash.bytes value)) := by
      rw [Framing.encodeWords, Checked.word_bind hsize, Framing.encode_pair hmax hfits]
      rfl
    have hlift : (liftM (Framing.encodeWords [hash.bytes, value]) : CheckedWrite Bytes) draft =
        ended (.ok (Framing.pair hash.bytes value, draft)) := by
      rw [hencode]
      rfl
    rw [putNode_apply hfits, putNodeWords, hmake]
    change ((liftM (Framing.encodeWords [hash.bytes, value]) : CheckedWrite Bytes) draft >>= _) = _
    rw [hlift]
    rfl

end Nodes

end TransparencyLog.Tree
