import TransparencyLog.Follow.Cache
import TransparencyLog.Proofs.Text

/-!
# Reading back what was written

Readers take a value from the front and leave the rest, so what was written value by value is read
value by value. Lengths are written in 64 bits: what is longer does not read back.

* `Binary.Reader.bind_some`, `Binary.Reader.exists_of_bind`: one value after another;
* `Binary.readText_text`, `Binary.readDigest_bytes`: single values;
* **`TreeHead.decode_encode`**, **`MapEntry.decode_encode`**: heads and map entries;
* **`TrustedHead.decode_claim`**: whatever is read from a trusted head has its size and root;
* `TrustedHead.Fits`, **`TrustedHead.decode_encode`**: a trusted head that fits reads back.
-/

namespace TransparencyLog

namespace Binary

section Bind

variable {α β : Type} {reader : Reader α} {input rest : Bytes} {a : α}

theorem Reader.bind_some (h : reader input = some (a, rest)) (next : α → Reader β) :
    (reader >>= next) input = next a rest := by
  show ((reader input).bind fun (a, rest) => next a rest) = _
  rw [h]
  rfl

theorem Reader.exists_of_bind {next : α → Reader β} {read : β × Bytes}
    (h : (reader >>= next) input = some read) :
    ∃ a rest, reader input = some (a, rest) ∧ next a rest = some read := by
  have hbind : ((reader input).bind fun (a, rest) => next a rest) = some read := h
  obtain ⟨⟨a, rest⟩, hfirst, hnext⟩ := Option.bind_eq_some_iff.mp hbind
  exact ⟨a, rest, hfirst, hnext⟩

theorem Reader.pure_apply (a : α) (rest : Bytes) : (pure a : Reader α) rest = some (a, rest) := rfl

theorem decode_of_some (h : reader input = some (a, rest)) : decode reader input = .ok a := by
  rw [decode, h]

theorem exists_of_decode (h : decode reader input = .ok a) : ∃ rest, reader input = some (a, rest) := by
  unfold decode at h
  cases hread : reader input with
  | none => simp [hread] at h
  | some read =>
    obtain ⟨b, rest⟩ := read
    simp only [hread, Except.ok.injEq] at h
    exact ⟨rest, by rw [h]⟩

end Bind

theorem readDigest_bytes (d : Digest) (rest : Bytes) :
    readDigest (d.bytes ++ rest) = some (d, rest) := by
  have htake := take_append d.bytes rest
  rw [d.length_eq] at htake
  unfold readDigest
  rw [Reader.bind_some htake, Digest.ofBytes?_bytes]
  rfl

theorem readText_text {s : String} (h : (Bytes.ofText s).length < UInt64.size) (rest : Bytes) :
    readText (text s ++ rest) = some (s, rest) := by
  unfold readText
  rw [text, Reader.bind_some (readBlock_block h rest), Utf8.decode?_ofText]
  rfl

end Binary

open Binary

/-! ## Heads -/

/-- The three fields in front of the signature are read whatever follows them. -/
theorem TreeHead.reader_fields (head : TreeHead) (rest : Bytes) :
    TreeHead.reader (word head.treeSize ++ head.logRoot.bytes ++ head.mapRoot.bytes ++ rest) =
      (do
        let signature ← readBlock
        return ⟨head.treeSize, head.logRoot, head.mapRoot, signature⟩ : Reader TreeHead) rest := by
  unfold TreeHead.reader
  rw [List.append_assoc, List.append_assoc, Reader.bind_some (readWord_word _ _),
    Reader.bind_some (readDigest_bytes _ _), Reader.bind_some (readDigest_bytes _ _)]

theorem TreeHead.reader_encode {head : TreeHead} (h : head.signature.length < UInt64.size)
    (rest : Bytes) : TreeHead.reader (head.encode ++ rest) = some (head, rest) := by
  rw [TreeHead.encode, List.append_assoc, TreeHead.reader_fields,
    Reader.bind_some (readBlock_block h rest), Reader.pure_apply]

/-- **A stored head reads back.** -/
theorem TreeHead.decode_encode {head : TreeHead} (h : head.signature.length < UInt64.size) :
    TreeHead.decode head.encode = .ok head := by
  have hread := TreeHead.reader_encode h []
  rw [List.append_nil] at hread
  exact decode_of_some hread

/-- **Whatever is read from a stored trusted head** has its size and its root. -/
theorem TrustedHead.decode_claim {trusted read : TrustedHead}
    (h : TrustedHead.decode trusted.encode = .ok read) :
    read.head.treeSize = trusted.head.treeSize ∧ read.head.logRoot = trusted.head.logRoot := by
  obtain ⟨rest, hread⟩ := exists_of_decode h
  unfold TrustedHead.reader at hread
  obtain ⟨head, behind, hhead, hread⟩ := Reader.exists_of_bind hread
  obtain ⟨confirmedAt, behind', _, hread⟩ := Reader.exists_of_bind hread
  have heq : read.head = head := by
    by_cases hmoment : Moment.isMoment confirmedAt = true
    · rw [if_pos hmoment, Reader.pure_apply] at hread
      rw [← (Prod.mk.inj (Option.some.inj hread)).1]
    · rw [if_neg hmoment] at hread
      cases hread
  rw [TrustedHead.encode, TreeHead.encode, List.append_assoc, TreeHead.reader_fields] at hhead
  obtain ⟨signature, behind'', _, hhead⟩ := Reader.exists_of_bind hhead
  rw [Reader.pure_apply] at hhead
  rw [heq, ← (Prod.mk.inj (Option.some.inj hhead)).1]
  exact ⟨rfl, rfl⟩

/-- The lengths can be written in 64 bits, and the time is one. -/
structure TrustedHead.Fits (trusted : TrustedHead) : Prop where
  signature_lt : trusted.head.signature.length < UInt64.size
  time_lt : (Bytes.ofText trusted.confirmedAt).length < UInt64.size
  moment : Moment.isMoment trusted.confirmedAt = true

/-- **A trusted head that fits reads back.** -/
theorem TrustedHead.decode_encode {trusted : TrustedHead} (h : trusted.Fits) :
    TrustedHead.decode trusted.encode = .ok trusted := by
  have htime := readText_text h.time_lt []
  rw [List.append_nil] at htime
  have hread : TrustedHead.reader trusted.encode = some (trusted, []) := by
    unfold TrustedHead.reader
    rw [TrustedHead.encode, Reader.bind_some (TreeHead.reader_encode h.signature_lt _),
      Reader.bind_some htime, if_pos h.moment, Reader.pure_apply]
  exact decode_of_some hread

/-! ## Map entries -/

/-- **A map entry reads back.** -/
theorem MapEntry.decode_encode {entry : MapEntry} (h : entry.value.length < UInt64.size) :
    MapEntry.decode entry.encode = .ok entry := by
  have hindex := readWord_word entry.index []
  rw [List.append_nil] at hindex
  have hread : MapEntry.reader entry.encode = some (entry, []) := by
    unfold MapEntry.reader
    rw [MapEntry.encode, Reader.bind_some (readBlock_block h _), Reader.bind_some hindex,
      Reader.pure_apply]
  exact decode_of_some hread

end TransparencyLog
