import Mathlib.Data.List.DropRight
import Mathlib.Data.List.TakeWhile
import TransparencyLog.Http.Url
import TransparencyLog.Proofs.Text

/-!
# Requests arrive as they were meant

A client writes named values into the query of a URL; whoever gets the request reads them back. A URL
that names a host, with or without slashes at its end, leads to the paths of that host.

* **`Form.parse_write`**: a written form is read back;
* `Http.Url.IsHost`: texts that name a host;
* **`Http.Url.parse?_path`**: the URL of a path on a host.
-/

namespace TransparencyLog

/-! ## Taking apart -/

namespace Bytes

variable {mark : UInt8} {before : Bytes}

theorem cut_append (h : ∀ b ∈ before, b ≠ mark) (after : Bytes) :
    cut mark (before ++ mark :: after) = (before, some after) := by
  have hall : ∀ b ∈ before, (b != mark) = true := fun b hb => bne_iff_ne.mpr (h b hb)
  rw [cut, List.takeWhile_append_of_pos hall, List.dropWhile_append_of_pos hall]
  simp

theorem pieces_of_ne (h : ∀ b ∈ before, b ≠ mark) : pieces mark before = [before] := by
  induction before with
  | nil => rfl
  | cons b before ih =>
    rw [pieces, if_neg (h b List.mem_cons_self), ih fun b hb => h b (List.mem_cons_of_mem _ hb)]

theorem pieces_append (h : ∀ b ∈ before, b ≠ mark) (after : Bytes) :
    pieces mark (before ++ mark :: after) = before :: pieces mark after := by
  induction before with
  | nil => rw [List.nil_append, pieces, if_pos rfl]
  | cons b before ih =>
    rw [List.cons_append, pieces, if_neg (h b List.mem_cons_self),
      ih fun b hb => h b (List.mem_cons_of_mem _ hb)]

theorem pieces_append_flatMap {parts : List Bytes} (h : ∀ b ∈ before, b ≠ mark)
    (hparts : ∀ part ∈ parts, ∀ b ∈ part, b ≠ mark) :
    pieces mark (before ++ parts.flatMap (mark :: ·)) = before :: parts := by
  induction parts generalizing before with
  | nil => rw [List.flatMap_nil, List.append_nil, pieces_of_ne h]
  | cons part parts ih =>
    rw [List.flatMap_cons, List.cons_append, pieces_append h,
      ih (hparts part List.mem_cons_self) fun part hmem => hparts part (List.mem_cons_of_mem _ hmem)]

/-- The bytes of a piece stand in the whole, in the same order, and the mark is not among them. -/
theorem sublist_of_mem_pieces {part bytes : Bytes} (h : part ∈ pieces mark bytes) :
    part.Sublist bytes ∧ ∀ b ∈ part, b ≠ mark := by
  induction bytes generalizing part with
  | nil =>
    cases List.mem_singleton.mp h
    exact ⟨List.Sublist.refl _, fun b hb => nomatch hb⟩
  | cons c bytes ih =>
    have hrest : ∀ {part}, part ∈ pieces mark bytes → part.Sublist (c :: bytes) ∧ ∀ b ∈ part, b ≠ mark :=
      fun hpart => (ih hpart).imp_left (List.Sublist.cons c)
    rw [pieces] at h
    split at h
    · rcases List.mem_cons.mp h with rfl | h
      · exact ⟨List.nil_sublist _, fun b hb => nomatch hb⟩
      · exact hrest h
    · next hne =>
      split at h
      · next hnone =>
        cases List.mem_singleton.mp h
        exact ⟨List.singleton_sublist.mpr List.mem_cons_self, List.forall_mem_singleton.mpr hne⟩
      · next first others hsome =>
        rw [hsome] at ih hrest
        rcases List.mem_cons.mp h with rfl | h
        · obtain ⟨hfirst, hmarks⟩ := ih List.mem_cons_self
          exact ⟨hfirst.cons_cons c, List.forall_mem_cons.mpr ⟨hne, hmarks⟩⟩
        · exact hrest (List.mem_cons_of_mem _ h)

/-- Pieces without the mark are what the joined text is taken apart into. -/
theorem pieces_intercalate {parts : List Bytes} (hne : parts ≠ [])
    (h : ∀ part ∈ parts, ∀ b ∈ part, b ≠ mark) : pieces mark ([mark].intercalate parts) = parts := by
  induction parts with
  | nil => exact absurd rfl hne
  | cons part parts ih =>
    have hpart := h part List.mem_cons_self
    cases parts with
    | nil => rw [List.intercalate_singleton, pieces_of_ne hpart]
    | cons next parts =>
      rw [List.intercalate_cons_cons, List.append_assoc, List.singleton_append, pieces_append hpart,
        ih (by simp) fun part hmem => h part (List.mem_cons_of_mem _ hmem)]

end Bytes

/-! ## Forms -/

namespace Form

/-- Whether a byte is kept in a form, blanks among them. -/
def kept (b : UInt8) : Bool := plain b || b == 0x20

/-- One byte of a written part: it is no mark, and with `+` as a blank it is an escape or kept. -/
theorem writeByte (b : UInt8) :
    ((if b = 0x20 then [0x2B] else Percent.encode plain [b]).map fun b => if b = 0x2B then 0x20 else b) =
        Percent.encode kept [b] ∧
      ∀ c ∈ (if b = 0x20 then [0x2B] else Percent.encode plain [b]), c ≠ 0x26 ∧ c ≠ 0x3D := by
  have hall : ∀ n : Fin 256, ((if UInt8.ofNat n.val = 0x20 then [0x2B]
        else Percent.encode plain [UInt8.ofNat n.val]).map fun b => if b = 0x2B then 0x20 else b) =
        Percent.encode kept [UInt8.ofNat n.val] ∧
      (if UInt8.ofNat n.val = 0x20 then [0x2B] else Percent.encode plain [UInt8.ofNat n.val]).all
        (fun c => c != 0x26 && c != 0x3D) = true := by decide +kernel
  simpa using hall ⟨b.toNat, b.toNat_lt⟩

theorem ne_of_mem_writePart {text : String} {c : UInt8} (h : c ∈ writePart text) :
    c ≠ 0x26 ∧ c ≠ 0x3D := by
  obtain ⟨b, -, hc⟩ := List.mem_flatMap.mp h
  exact (writeByte b).2 c hc

/-- With `+` as a blank, the bytes of a written part are escaped or kept. -/
theorem map_writeBytes (bytes : Bytes) :
    (bytes.flatMap fun b => if b = 0x20 then [0x2B] else Percent.encode plain [b]).map
      (fun b => if b = 0x2B then 0x20 else b) = Percent.encode kept bytes := by
  induction bytes with
  | nil => rfl
  | cons b bytes ih =>
    rw [List.flatMap_cons, List.map_append, (writeByte b).1, ih]
    exact List.flatMap_append.symm

theorem readPart_writePart (text : String) : readPart (writePart text) = text := by
  rw [readPart, writePart, map_writeBytes, Percent.decode_encode kept rfl, Utf8.lossy_ofText]

theorem readPair_writePair (pair : String × String) : readPair (writePair pair) = pair := by
  have hname : ∀ c ∈ writePart pair.1, c ≠ 0x3D := fun c hc => (ne_of_mem_writePart hc).2
  rw [writePair, readPair, Bytes.cut_append hname]
  simp only [Option.getD_some, readPart_writePart]

/-- A written pair is one piece. -/
theorem ne_of_mem_writePair {pair : String × String} {b : UInt8} (h : b ∈ writePair pair) : b ≠ 0x26 := by
  rcases List.mem_append.mp h with h | h
  · exact (ne_of_mem_writePart h).1
  · rcases List.mem_cons.mp h with rfl | h
    · decide
    · exact (ne_of_mem_writePart h).1

/-- **A written form is read back.** -/
theorem parse_write (form : Form) : parse (write form) = form := by
  cases hform : form with
  | nil => rfl
  | cons pair rest =>
    rw [← hform]
    have hmarks : ∀ part ∈ form.map writePair, ∀ b ∈ part, b ≠ 0x26 := by
      intro part hpart b hb
      obtain ⟨pair, -, rfl⟩ := List.mem_map.mp hpart
      exact ne_of_mem_writePair hb
    have hfilter : (form.map writePair).filter (fun piece => !piece.isEmpty) = form.map writePair := by
      refine List.filter_eq_self.mpr fun part hpart => ?_
      obtain ⟨pair, -, rfl⟩ := List.mem_map.mp hpart
      simp [writePair]
    rw [parse, write, Bytes.pieces_intercalate (by simp [hform]) hmarks, hfilter, List.map_map]
    have hsame : readPair ∘ writePair = id := funext readPair_writePair
    rw [hsame, List.map_id]

end Form

/-! ## URLs -/

namespace Http.Url

/-- A text that names a host, possibly with a port: no blank or control byte, and nothing that ends a
host. -/
def IsHost (host : String) : Prop :=
  host ≠ "" ∧ ∀ b ∈ Bytes.ofText host, 0x20 < b.toNat ∧ endsHost b = false

/-- A path that is its own URL form: clean segments after slashes, and no query. -/
def IsFixedPath (path : String) : Prop :=
  (∀ b ∈ Bytes.ofText path, 0x20 < b.toNat) ∧ (∃ rest, Bytes.ofText path = 0x2F :: rest) ∧
    Target.split (Bytes.ofText path) = ⟨Bytes.ofText path, none⟩ ∧
    readPath (Bytes.ofText path) = Bytes.ofText path

/-- The end of a text, as it is after blanks and control bytes behind it, and tabs and line ends within,
have fallen away. -/
def stripEnd (bytes : Bytes) : Bytes :=
  (bytes.rdropWhile (· ≤ 0x20)).filter fun b => b != 0x09 && b != 0x0A && b != 0x0D

section Strip

variable {front : Bytes}

theorem dropWhile_blank (h : ∀ b ∈ front, 0x20 < b.toNat) (back : Bytes) (hne : front ≠ []) :
    (front ++ back).dropWhile (· ≤ 0x20) = front ++ back := by
  obtain ⟨b, rest, rfl⟩ := List.exists_cons_of_ne_nil hne
  have hb : ¬ b ≤ 0x20 := by
    rw [UInt8.le_iff_toNat_le]
    exact Nat.not_le.mpr (h b List.mem_cons_self)
  rw [List.cons_append, List.dropWhile_cons, if_neg (by simpa using hb)]

theorem rdropWhile_blank (h : ∀ b ∈ front, 0x20 < b.toNat) (back : Bytes) :
    (front ++ back).rdropWhile (· ≤ 0x20) = front ++ back.rdropWhile (· ≤ 0x20) := by
  have hreverse : front.reverse.dropWhile (· ≤ 0x20) = front.reverse := by
    by_cases hne : front.reverse = []
    · rw [hne]
      rfl
    · simpa using dropWhile_blank (fun b hb => h b (List.mem_reverse.mp hb)) [] hne
  rw [List.rdropWhile, List.rdropWhile, List.reverse_append, List.dropWhile_append, hreverse]
  split
  · next hempty => rw [List.isEmpty_iff.mp hempty, List.reverse_reverse, List.reverse_nil, List.append_nil]
  · rw [List.reverse_append, List.reverse_reverse]

theorem filter_visible (h : ∀ b ∈ front, 0x20 < b.toNat) :
    front.filter (fun b => b != 0x09 && b != 0x0A && b != 0x0D) = front := by
  refine List.filter_eq_self.mpr fun b hb => ?_
  have := h b hb
  simp only [Bool.and_eq_true, bne_iff_ne]
  refine ⟨⟨?_, ?_⟩, ?_⟩ <;> rintro rfl <;> exact absurd this (by decide)

theorem stripEnd_append (h : ∀ b ∈ front, 0x20 < b.toNat) (back : Bytes) :
    stripEnd (front ++ back) = front ++ stripEnd back := by
  rw [stripEnd, rdropWhile_blank h, List.filter_append, filter_visible h, stripEnd]

theorem strip_append (h : ∀ b ∈ front, 0x20 < b.toNat) (hne : front ≠ []) (back : Bytes) :
    strip (front ++ back) = front ++ stripEnd back := by
  rw [← stripEnd_append h, strip, dropWhile_blank h back hne]
  rfl

end Strip

section Host

variable {scheme host path : String} {rest : Bytes}

/-- The URL of what follows the name of a host. -/
def onHost (scheme host : String) (bytes : Bytes) : Url :=
  ⟨scheme, Bytes.ofText host, readPath (Target.split bytes).path,
    (Target.split bytes).query.map (Percent.encode isQueryByte)⟩

/-- What follows the scheme: slashes, the host, the path. -/
theorem readRest_eq (hhost : IsHost host) :
    readRest scheme (0x2F :: 0x2F :: (Bytes.ofText host ++ 0x2F :: rest)) =
      some (onHost scheme host (0x2F :: rest)) := by
  obtain ⟨hne, hbytes⟩ := hhost
  have hhostNe : Bytes.ofText host ≠ [] := fun h => hne (Bytes.ofText_injective h)
  have hslashes : (0x2F :: 0x2F :: (Bytes.ofText host ++ 0x2F :: rest)).dropWhile
      (fun b => b == 0x2F || b == 0x5C) = Bytes.ofText host ++ 0x2F :: rest := by
    obtain ⟨b, others, heq⟩ := List.exists_cons_of_ne_nil hhostNe
    have hb := (hbytes b (heq ▸ List.mem_cons_self)).2
    simp only [endsHost, Bool.or_eq_false_iff] at hb
    rw [heq]
    simp [hb]
  have hin : ∀ b ∈ Bytes.ofText host, (!endsHost b) = true := fun b hb => by simp [(hbytes b hb).2]
  have hout : (!endsHost 0x2F) = false := rfl
  have htake : (Bytes.ofText host ++ 0x2F :: rest).takeWhile (fun b => !endsHost b) =
      Bytes.ofText host := by
    rw [List.takeWhile_append_of_pos hin, List.takeWhile_cons, hout]
    simp
  have hdrop : (Bytes.ofText host ++ 0x2F :: rest).dropWhile (fun b => !endsHost b) = 0x2F :: rest := by
    rw [List.dropWhile_append_of_pos hin, List.dropWhile_cons, hout]
    simp
  simp only [readRest, hslashes, htake, hdrop]
  rw [if_neg (by simpa using hhostNe)]
  rfl

/-- **The URL of what follows a host**, once its end is stripped. -/
theorem parse?_host (hscheme : scheme = "http" ∨ scheme = "https") (hhost : IsHost host)
    (hpath : stripEnd (Bytes.ofText path) = 0x2F :: rest) :
    parse? (scheme ++ "://" ++ host ++ path) = some (onHost scheme host (0x2F :: rest)) := by
  have hclean : ∀ b ∈ Bytes.ofText scheme, 0x20 < b.toNat ∧ b ≠ 0x3A := by
    rcases hscheme with rfl | rfl <;> decide +kernel
  have hmark : ∀ b ∈ Bytes.ofText "://", 0x20 < b.toNat := by decide +kernel
  have hfront : ∀ b ∈ Bytes.ofText (scheme ++ "://" ++ host), 0x20 < b.toNat := fun b hb => by
    simp only [Bytes.ofText_append, List.mem_append] at hb
    rcases hb with (hb | hb) | hb
    · exact (hclean b hb).1
    · exact hmark b hb
    · exact (hhost.2 b hb).1
  have hne : Bytes.ofText (scheme ++ "://" ++ host) ≠ [] := fun h => by
    simp only [Bytes.ofText_append, List.append_eq_nil_iff] at h
    exact absurd h.1.2 (by decide)
  have hstrip : strip (Bytes.ofText (scheme ++ "://" ++ host ++ path)) =
      Bytes.ofText scheme ++ 0x3A :: 0x2F :: 0x2F :: (Bytes.ofText host ++ 0x2F :: rest) := by
    rw [Bytes.ofText_append, strip_append hfront hne, hpath]
    simp only [Bytes.ofText_append, List.append_assoc]
    rfl
  rw [parse?, hstrip, Bytes.cut_append fun b hb => (hclean b hb).2]
  simp only [Utf8.lossy_ofText]
  rcases hscheme with rfl | rfl
  · rw [show "http".toLower = "http" by decide +kernel]
    exact readRest_eq hhost
  · rw [show "https".toLower = "https" by decide +kernel]
    exact readRest_eq hhost

/-- **The URL of a path on a host.** -/
theorem parse?_path (hscheme : scheme = "http" ∨ scheme = "https") (hhost : IsHost host)
    (hpath : IsFixedPath path) :
    parse? (scheme ++ "://" ++ host ++ path) =
      some ⟨scheme, Bytes.ofText host, ⟨Bytes.ofText path, none⟩⟩ := by
  obtain ⟨hclean, ⟨rest, hslash⟩, hsplit, hread⟩ := hpath
  have hend : stripEnd (Bytes.ofText path) = Bytes.ofText path := by
    simpa [stripEnd] using stripEnd_append hclean []
  rw [parse?_host hscheme hhost (hend.trans hslash), ← hslash, onHost, hsplit, hread]
  rfl

end Host

end Http.Url

end TransparencyLog
