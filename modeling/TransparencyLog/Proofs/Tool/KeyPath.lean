import TransparencyLog.Daemon.Route
import TransparencyLog.Proofs.Decoding
import TransparencyLog.Proofs.Http

/-!
# Keys at the end of a URL

A key that is asked for stands as it is at the end of a URL. On the way to the daemon some of its bytes
fall away or end the path, dots are resolved, and escapes are read. Nothing is ever added that is not read
back, so a key that arrives whole has lost nothing on any part of the way: there are no such bytes, dots
or escapes in it. These keys, and no others, spell themselves.

* `Route.ofPath?_eq_decision_iff`: the paths that ask for a decision;
* `Http.Url.spelled`, `Http.Url.segments`, `Http.Url.keyPath`: what becomes of a key;
* `Http.Url.segments_sublist`, **`Http.Url.pieces_keyPath`**: its path, and the segments in it;
* **`Http.Url.SpellsItself`**, `Http.Url.SpellsItself.ofPath?_keyPath`: a key that spells itself is asked
  for by its path;
* **`Http.Url.spellsItself_of_segments`**: no other key is.
-/

namespace TransparencyLog

/-! ## Paths that ask for a decision -/

theorem Route.ofPath?_eq_decision_iff {path segment : Bytes} :
    ofPath? path = some (.ask (.decision segment)) ↔
      Bytes.pieces 0x2F path = [[], Bytes.ofText "decide", segment] ∧ segment ≠ [] := by
  have hother : ∀ entry ∈ fixed, (Bytes.pieces 0x2F (Bytes.ofText entry.1))[1]? ≠
      some (Bytes.ofText "decide") := by decide +kernel
  constructor
  · intro h
    rw [ofPath?] at h
    split at h
    · next text route hfind =>
      have hmem := List.mem_of_find?_eq_some hfind
      cases h
      simp [fixed] at hmem
    · split at h
      · next name last hpieces =>
        simp only [keyed?] at h
        split at h
        · cases h
        · next hne =>
          split at h
          · next hname =>
            cases h
            exact ⟨by rw [hpieces, hname], by simpa using hne⟩
          · split at h <;> cases h
      · cases h
  · rintro ⟨hpieces, hne⟩
    have hnone : (fixed.find? fun entry => Bytes.ofText entry.1 == path) = none := by
      refine List.find?_eq_none.mpr fun entry hentry heq => hother entry hentry ?_
      rw [beq_iff_eq.mp heq, hpieces]
      rfl
    rw [ofPath?, hnone, hpieces]
    simp only [keyed?, List.isEmpty_iff, hne]
    rfl

/-! ## What becomes of a key -/

namespace Http.Url

section Spelled

variable {front key bytes : Bytes} {last name segment : Bytes}

/-- What is left of a key at the end of a URL's path. -/
def spelled (key : Bytes) : Bytes := (Target.split (stripEnd key)).path

theorem path_split_append (h : ∀ b ∈ front, b ≠ 0x23 ∧ b ≠ 0x3F) (back : Bytes) :
    (Target.split (front ++ back)).path = front ++ (Target.split back).path := by
  have hfragment : ∀ b ∈ front, (b != 0x23) = true := fun b hb => bne_iff_ne.mpr (h b hb).1
  have hquery : ∀ b ∈ front, (b != 0x3F) = true := fun b hb => bne_iff_ne.mpr (h b hb).2
  change (((front ++ back).takeWhile (· != 0x23)).takeWhile (· != 0x3F)) = _
  rw [List.takeWhile_append_of_pos hfragment, List.takeWhile_append_of_pos hquery]
  rfl

theorem sublist_stripEnd (key : Bytes) : (stripEnd key).Sublist (key.rdropWhile (· ≤ 0x20)) :=
  List.filter_sublist

theorem sublist_spelled (key : Bytes) : (spelled key).Sublist (stripEnd key) :=
  ((List.takeWhile_prefix _).trans (List.takeWhile_prefix _)).sublist

/-- The bytes that end a path or fall away. -/
theorem ne_of_mem_spelled {b : UInt8} (h : b ∈ spelled key) :
    b ∉ [0x3F, 0x23, 0x09, 0x0A, 0x0D] := by
  have hquery := List.mem_takeWhile_imp h
  have hfragment := List.mem_takeWhile_imp ((List.takeWhile_prefix _).subset h)
  have hvisible := (List.mem_filter.mp ((sublist_spelled key).subset h)).2
  simp only [bne_iff_ne, Bool.and_eq_true] at hquery hfragment hvisible
  simp [hquery, hfragment, hvisible]

/-- Backslashes are read as slashes. -/
def slash (b : UInt8) : UInt8 := if b == 0x5C then 0x2F else b

/-- The segments of the path that ends with a key; there is always one. -/
def segments (key : Bytes) : List Bytes :=
  let resolved := resolve [Bytes.ofText "decide"] (Bytes.pieces 0x2F ((spelled key).map slash))
  if resolved.isEmpty then [[]] else resolved

/-- Resolving dots leaves segments out, and may add an empty one. -/
theorem resolve_sublist (done rest : List Bytes) :
    (resolve done rest).Sublist (done.reverse ++ (rest ++ [[]])) := by
  induction rest generalizing done with
  | nil => exact List.sublist_append_left _ _
  | cons segment rest ih =>
    have hskip : ∀ done', done'.reverse.Sublist done.reverse →
        (resolve (if rest.isEmpty then [] :: done' else done') rest).Sublist
          (done.reverse ++ (segment :: rest ++ [[]])) := fun done' hdone => by
      cases rest with
      | nil =>
        change (resolve ([] :: done') []).Sublist _
        rw [resolve, List.reverse_cons]
        exact hdone.append (List.sublist_cons_self _ _)
      | cons next rest =>
        rw [if_neg (by simp)]
        exact (ih done').trans (hdone.append (List.sublist_cons_self _ _))
    rw [resolve]
    split
    · exact hskip done (List.Sublist.refl _)
    · exact hskip done.tail (List.reverse_sublist.mpr (List.tail_sublist done))
    · have hkeep := ih (segment :: done)
      rwa [List.reverse_cons, List.append_assoc] at hkeep

theorem segments_sublist (key : Bytes) : (segments key).Sublist
    (Bytes.ofText "decide" :: (Bytes.pieces 0x2F ((spelled key).map slash) ++ [[]])) := by
  rw [segments]
  split
  · exact (List.sublist_append_right _ _).cons _
  · exact resolve_sublist [Bytes.ofText "decide"] _

/-- The last of two segments is a part of the key without a slash, or it is empty. -/
theorem sublist_of_segments (h : segments key = [name, last]) (hne : last ≠ []) :
    last.Sublist ((spelled key).map slash) ∧ ∀ b ∈ last, b ≠ 0x2F := by
  have hsublist := segments_sublist key
  rw [h] at hsublist
  have htail : [last].Sublist (Bytes.pieces 0x2F ((spelled key).map slash) ++ [[]]) :=
    hsublist.tail
  rcases List.mem_append.mp (List.singleton_sublist.mp htail) with hmem | hmem
  · exact Bytes.sublist_of_mem_pieces hmem
  · exact absurd (List.mem_singleton.mp hmem) hne

/-- A slash is never written for another byte. -/
theorem ne_of_mem_encode (h : ∀ b ∈ bytes, b ≠ 0x2F) : ∀ b ∈ Percent.encode isPathByte bytes, b ≠ 0x2F := by
  have hescape : ∀ n : Fin 256, (Percent.escape (UInt8.ofNat n.val)).all (· != 0x2F) = true := by
    decide +kernel
  intro b hb
  obtain ⟨c, hc, hwritten⟩ := List.mem_flatMap.mp hb
  split at hwritten
  · rw [List.mem_singleton.mp hwritten]
    exact h c hc
  · have hall := hescape ⟨c.toNat, c.toNat_lt⟩
    rw [UInt8.ofNat_toNat] at hall
    exact bne_iff_ne.mp (List.all_eq_true.mp hall b hwritten)

theorem ne_of_mem_segments {segment : Bytes} (h : segment ∈ segments key) : ∀ b ∈ segment, b ≠ 0x2F := by
  rcases List.mem_cons.mp ((segments_sublist key).subset h) with rfl | h
  · decide +kernel
  rcases List.mem_append.mp h with h | h
  · exact (Bytes.sublist_of_mem_pieces h).2
  · rw [List.mem_singleton.mp h]
    exact fun b hb => nomatch hb

/-- The path that ends with a key. -/
def keyPath (key : Bytes) : Bytes := readPath (Bytes.ofText "/decide/" ++ spelled key)

theorem keyPath_eq (key : Bytes) : keyPath key =
    (segments key).flatMap fun segment => 0x2F :: Percent.encode isPathByte segment := by
  have hslashed : (Bytes.ofText "/decide/" ++ spelled key).map slash =
      0x2F :: (Bytes.ofText "decide" ++ 0x2F :: (spelled key).map slash) := by
    rw [List.map_append, show (Bytes.ofText "/decide/").map slash =
      0x2F :: (Bytes.ofText "decide" ++ [0x2F]) by decide +kernel, List.cons_append, List.append_assoc]
    rfl
  have hpieces : (Bytes.pieces 0x2F ((Bytes.ofText "/decide/" ++ spelled key).map slash)).drop 1 =
      Bytes.ofText "decide" :: Bytes.pieces 0x2F ((spelled key).map slash) := by
    rw [hslashed, Bytes.pieces, if_pos rfl, Bytes.pieces_append (by decide +kernel)]
    rfl
  have hresolve : resolve [] ((Bytes.pieces 0x2F
      ((Bytes.ofText "/decide/" ++ spelled key).map slash)).drop 1) =
        resolve [Bytes.ofText "decide"] (Bytes.pieces 0x2F ((spelled key).map slash)) := by
    rw [hpieces, resolve]
    rfl
  have hread : ∀ bytes, readPath bytes =
      (if (resolve [] ((Bytes.pieces 0x2F (bytes.map slash)).drop 1)).isEmpty then [[]]
        else resolve [] ((Bytes.pieces 0x2F (bytes.map slash)).drop 1)).flatMap fun segment =>
          0x2F :: Percent.encode isPathByte segment := fun _ => rfl
  rw [keyPath, hread, hresolve]
  rfl

/-- The path, taken apart again. -/
theorem pieces_keyPath (key : Bytes) : Bytes.pieces 0x2F (keyPath key) =
    [] :: (segments key).map (Percent.encode isPathByte) := by
  have hjoined : keyPath key =
      [] ++ ((segments key).map (Percent.encode isPathByte)).flatMap (0x2F :: ·) := by
    rw [keyPath_eq, List.flatMap_map, List.nil_append]
  rw [hjoined, Bytes.pieces_append_flatMap (List.forall_mem_nil _)]
  rintro part hpart
  obtain ⟨segment, hsegment, rfl⟩ := List.mem_map.mp hpart
  exact ne_of_mem_encode (ne_of_mem_segments hsegment)

/-- **What the path of a key asks for**: the last of two segments. -/
theorem ofPath?_keyPath (h : Route.ofPath? (keyPath key) = some (.ask (.decision segment))) :
    ∃ name last, segments key = [name, last] ∧ last ≠ [] ∧ segment = Percent.encode isPathByte last := by
  obtain ⟨hpieces, hne⟩ := Route.ofPath?_eq_decision_iff.mp h
  rw [pieces_keyPath] at hpieces
  obtain ⟨name, rest, hsegments, -, htail⟩ := List.map_eq_cons_iff.mp (List.cons.inj hpieces).2
  obtain ⟨last, rfl, hlast⟩ := List.map_eq_singleton_iff.mp htail
  refine ⟨name, last, hsegments, ?_, hlast.symm⟩
  rintro rfl
  exact hne hlast.symm

/-- Writing the path keeps the escapes that a key has. -/
theorem decode_encode_path (bytes : Bytes) :
    Percent.decode (Percent.encode isPathByte bytes) = Percent.decode bytes := by
  have hdigits : ∀ n : Fin 256, (Hex.value? (UInt8.ofNat n.val)).isSome →
      isPathByte (UInt8.ofNat n.val) = true := by decide +kernel
  refine Percent.decode_encode_of_kept rfl (fun b hb => ?_) bytes
  have hbyte : UInt8.ofNat b.toNat = b := UInt8.ofNat_toNat
  rw [← hbyte] at hb ⊢
  exact hdigits ⟨b.toNat, b.toNat_lt⟩ hb

end Spelled

/-! ## Keys that spell themselves -/

/-- The bytes that end a path or a segment of it, and those that fall away. -/
def marks : Bytes := [0x2F, 0x5C, 0x3F, 0x23, 0x09, 0x0A, 0x0D]

/-- A key that stays as it is at the end of a URL: no byte of it is a mark, it ends neither in a blank nor in
a control byte, it is no dot segment, and there is no escape in it. -/
structure SpellsItself (key : Bytes) : Prop where
  unmarked : ∀ b ∈ key, b ∉ marks
  visible : ∃ front last, key = front ++ [last] ∧ 0x20 < last
  undotted : key ≠ [0x2E] ∧ key ≠ [0x2E, 0x2E]
  unescaped : Percent.decode key = key

section SpellsItself

variable {key : Bytes}

/-- Without escapes only dots are dots. -/
theorem eq_replicate_of_dots {n : Nat} (h : dots key = some n) (hplain : Percent.decode key = key) :
    key = List.replicate n 0x2E := by
  fun_induction dots key generalizing n with
  | case1 =>
    cases h
    rfl
  | case2 rest ih =>
    obtain ⟨m, hm, rfl⟩ := Option.map_eq_some_iff.mp h
    rw [Percent.decode_cons_of_ne (by decide)] at hplain
    rw [List.replicate_succ, ← ih hm (List.cons.inj hplain).2]
  | case3 e rest he ih =>
    have hlow : Percent.byte? 0x32 e = some 0x2E := by
      rcases (Bool.or_eq_true _ _).mp he with he | he <;> rw [beq_iff_eq.mp he] <;> decide
    have hshort := Percent.length_decode_le rest
    have hlength := congrArg List.length hplain
    rw [show (0x25 : UInt8) = Percent.sign from rfl, Percent.decode, if_pos rfl, hlow] at hlength
    simp only [List.length_cons] at hlength
    omega
  | case4 => cases h
  | case5 => cases h

theorem SpellsItself.ne_of_mem (h : SpellsItself key) {b : UInt8} (hb : b ∈ key) :
    (b ≠ 0x2F ∧ b ≠ 0x5C) ∧ (b ≠ 0x23 ∧ b ≠ 0x3F) ∧ b ≠ 0x09 ∧ b ≠ 0x0A ∧ b ≠ 0x0D := by
  have hunmarked := h.unmarked b hb
  simp only [marks, List.mem_cons, List.not_mem_nil, or_false, not_or] at hunmarked
  obtain ⟨hslash, hback, hquery, hfragment, hrest⟩ := hunmarked
  exact ⟨⟨hslash, hback⟩, ⟨hfragment, hquery⟩, hrest⟩

/-- Nothing falls away at its end or within. -/
theorem SpellsItself.spelled_eq (h : SpellsItself key) : spelled key = key := by
  obtain ⟨front, last, hkey, hlast⟩ := h.visible
  have hend : key.rdropWhile (· ≤ 0x20) = key := by
    rw [hkey, List.rdropWhile_concat, if_neg (by simpa using hlast)]
  have hvisible : stripEnd key = key := by
    rw [stripEnd, hend]
    exact List.filter_eq_self.mpr fun b hb => by simp [(h.ne_of_mem hb).2.2]
  have hsplit := path_split_append (fun b hb => (h.ne_of_mem hb).2.1) []
  rw [List.append_nil] at hsplit
  rw [spelled, hvisible, hsplit]
  exact List.append_nil key

/-- It is the segment behind the route's name. -/
theorem SpellsItself.segments_eq (h : SpellsItself key) : segments key = [Bytes.ofText "decide", key] := by
  have hslash : key.map slash = key :=
    (List.map_congr_left fun b hb => if_neg (by simpa using (h.ne_of_mem hb).1.2)).trans (List.map_id key)
  have hdots : ∀ n, dots key = some n → n ≠ 1 ∧ n ≠ 2 := fun n hn => by
    have hkey := eq_replicate_of_dots hn h.unescaped
    constructor
    · rintro rfl
      exact h.undotted.1 hkey
    · rintro rfl
      exact h.undotted.2 hkey
  have hresolve : resolve [Bytes.ofText "decide"] [key] = [Bytes.ofText "decide", key] := by
    rw [resolve]
    split
    · next hone => exact absurd rfl (hdots 1 hone).1
    · next htwo => exact absurd rfl (hdots 2 htwo).2
    · rfl
  rw [segments, h.spelled_eq, hslash, Bytes.pieces_of_ne fun b hb => (h.ne_of_mem hb).1.1, hresolve]
  rfl

/-- **A key that spells itself is asked for by its path**: it is the last segment, escaped. -/
theorem SpellsItself.ofPath?_keyPath (h : SpellsItself key) : Route.ofPath? (keyPath key) =
    some (.ask (.decision (Percent.encode isPathByte key))) := by
  have hplain : Percent.encode isPathByte (Bytes.ofText "decide") = Bytes.ofText "decide" := by
    decide +kernel
  refine Route.ofPath?_eq_decision_iff.mpr ⟨?_, fun hempty => ?_⟩
  · rw [pieces_keyPath, h.segments_eq, List.map_cons, List.map_singleton, hplain]
  · obtain ⟨front, last, hkey, -⟩ := h.visible
    have hnone : Percent.decode [] = key := by rw [← hempty, decode_encode_path, h.unescaped]
    rw [hkey] at hnone
    exact List.append_ne_nil_of_right_ne_nil front (List.cons_ne_nil last []) hnone.symm

/-- **A key that its path asks for spells itself**: on the way to the last segment nothing is added, so
nothing has been taken away either. -/
theorem spellsItself_of_segments {name last : Bytes} (h : segments key = [name, last]) (hne : last ≠ [])
    (hkey : Percent.decode last = key) : SpellsItself key := by
  obtain ⟨hlast, hslashes⟩ := sublist_of_segments h hne
  have htrim : (key.rdropWhile (· ≤ 0x20)).Sublist key := (List.rdropWhile_prefix _ key).sublist
  have hspelled := (sublist_spelled key).trans (sublist_stripEnd key)
  have hdecode := Percent.length_decode_le last
  have hlength := hlast.length_le
  have hwhole := (hspelled.trans htrim).length_le
  rw [hkey] at hdecode
  rw [List.length_map] at hlength
  obtain rfl : last = key := by
    rw [← hkey, Percent.decode_eq_self (by rw [hkey]; omega)]
  have hsame : spelled last = last := (hspelled.trans htrim).eq_of_length_le (by omega)
  have hvisible : last.rdropWhile (· ≤ 0x20) = last :=
    htrim.eq_of_length_le (hlength.trans hspelled.length_le)
  have hmapped : last = last.map slash := by
    rw [hsame] at hlast
    exact hlast.eq_of_length (List.length_map _).symm
  refine ⟨fun b hb => ?_, ?_, ⟨?_, ?_⟩, hkey⟩
  · have hback : b ≠ 0x5C := by
      rintro rfl
      refine hslashes 0x2F ?_ rfl
      rw [hmapped]
      exact List.mem_map_of_mem (f := slash) hb
    have hother : b ∉ [0x3F, 0x23, 0x09, 0x0A, 0x0D] := ne_of_mem_spelled (by rwa [hsame])
    exact List.not_mem_cons_of_ne_of_not_mem (hslashes b hb)
      (List.not_mem_cons_of_ne_of_not_mem hback hother)
  · have hend := List.rdropWhile_eq_self_iff.mp hvisible hne
    exact ⟨_, _, (List.dropLast_append_getLast hne).symm, by simpa using hend⟩
  · rintro rfl
    have hdot : segments [0x2E] = [Bytes.ofText "decide", []] := by decide +kernel
    rw [hdot] at h
    cases h
  · rintro rfl
    have hdots : segments [0x2E, 0x2E] = [[]] := by decide +kernel
    rw [hdots] at h
    cases h

end SpellsItself

end Http.Url

end TransparencyLog
