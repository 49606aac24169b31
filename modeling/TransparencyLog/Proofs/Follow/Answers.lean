import TransparencyLog.Follow.Survey
import TransparencyLog.Proofs.Ledger.Acceptance
import TransparencyLog.Proofs.Ledger.Issued
import TransparencyLog.Proofs.SparseMap.Compressed

/-!
# Checked answers are recorded ones

A follower that trusts a head asks for a key and gets a value and a compressed proof from whoever
answers. It takes the answer only if the proof leads to the map root of the head. So what it takes is
what the map has, however the answer was made up. The log that issued the head can give such an answer
for every key and for good: later batches leave the trees of earlier roots as they are.

* `HeadCache.Tells`: the answer is what the map has under the key;
* `HeadCache.checkAnswer_cases`: what has been checked of an answer;
* **`HeadCache.tells_of_query`**: an answer that is taken;
* `SharedLog.Sound.read_mapValue`, **`SharedLog.query_of_reaches`**: the answers of the log itself;
* **`HeadCache.query_recorded`**: both, over every map and every run of the log.
-/

namespace TransparencyLog

open Ledger SparseMap

/-- What is hashed for a map and to check an answer about it. -/
def HeadCache.answerInputs (map : KeyMap) (siblings : List Digest) (key : Bytes)
    (found : Option Bytes) : Set Bytes :=
  keyedInputs map ∪ verifyInputs siblings key found

namespace HeadCache

/-- The answer tells what the map has under a key: the value of an entry, or nothing. -/
def Tells (map : KeyMap) (key : Bytes) : Option String → Prop
  | none => key ∉ map
  | some text => ∃ entry : MapEntry, map[key]? = some entry.encode ∧ text = Hex.encode entry.value

/-- The map consists of entries whose lengths can be written in 64 bits. -/
def HasEntries (map : KeyMap) : Prop := ∀ key value : Bytes, map[key]? = some value →
  ∃ entry : MapEntry, entry.value.length < UInt64.size ∧ value = entry.encode

/-! ## Answers of any origin -/

section Answers

variable {map : KeyMap} {head : TreeHead} {key : Bytes} {found : MapValue} {answer : Option String}

/-- An answer that is taken has a proof that expands and shows it. -/
theorem checkAnswer_cases (h : checkAnswer head key found = .ok answer) :
    ∃ siblings, found.proof.expand = .ok siblings ∧
      verify siblings head.mapRoot key found.value = true ∧ (found.value = none → answer = none) := by
  unfold checkAnswer at h
  cases hexpand : found.proof.expand with
  | error e =>
    rw [hexpand] at h
    cases h
  | ok siblings =>
    simp only [hexpand] at h
    by_cases hverify : verify siblings head.mapRoot key found.value = true
    · rw [if_pos hverify] at h
      refine ⟨siblings, rfl, hverify, fun hnone => ?_⟩
      simp only [hnone] at h
      exact (Except.ok.inj h).symm
    · rw [if_neg hverify] at h
      cases h

/-- An answer with the value of the map passes, if the proof shows it, and tells what the map has. -/
theorem checkAnswer_of_verify (entries : HasEntries map) (hvalue : found.value = map[key]?)
    {siblings : List Digest} (hexpand : found.proof.expand = .ok siblings)
    (hverify : verify siblings head.mapRoot key map[key]? = true) :
    ∃ answer, checkAnswer head key found = .ok answer ∧ Tells map key answer := by
  unfold checkAnswer
  simp only [hexpand, hvalue, if_pos hverify]
  cases hget : map[key]? with
  | none =>
    refine ⟨none, rfl, fun hmem => ?_⟩
    rw [Std.ExtTreeMap.mem_iff_isSome_getElem?, hget] at hmem
    cases hmem
  | some bytes =>
    obtain ⟨entry, hlen, rfl⟩ := entries key bytes hget
    simp only [MapEntry.decode_encode hlen]
    exact ⟨_, rfl, entry, hget, rfl⟩

theorem answer_of_query {cache : HeadCache} (hhead : cache.head? = some head)
    {ask : Digest → Except ApiError MapValue} (h : cache.query key ask = .ok answer) :
    ∃ found, ask head.mapRoot = .ok found ∧ checkAnswer head key found = .ok answer := by
  simp only [query, hhead] at h
  cases hask : ask head.mapRoot with
  | error e =>
    rw [hask] at h
    cases h
  | ok found =>
    rw [hask] at h
    exact ⟨found, rfl, h⟩

/-- The map's own proof of a key shows what it has under it. -/
theorem verify_placed (hinj : Set.InjOn sha256 {other | other ∈ map}) (apart : Apart key map) :
    verify (siblingsOf (sha256 key) height (placed map)) (keyedRoot map) key map[key]? = true ∧
      verifyInputs (siblingsOf (sha256 key) height (placed map)) key map[key]? ⊆
        insert key (keyedInputs map) := by
  rw [← placed_path hinj apart]
  refine ⟨verify_siblingsOf key (placed map), (verifyInputs_siblingsOf_subset key _).trans ?_⟩
  exact Set.insert_subset_insert Set.subset_union_right

/-- The map's own answer and proof are taken. -/
theorem query_own {cache : HeadCache} (hhead : cache.head? = some head)
    (hroot : head.mapRoot = keyedRoot map) (entries : HasEntries map)
    (hinj : Set.InjOn sha256 {other | other ∈ map}) (apart : Apart key map) :
    ∃ answer, Tells map key answer ∧ cache.query key (fun _ => .ok ⟨map[key]?,
      .ofSiblings (siblingsOf (sha256 key) height (placed map))⟩) = .ok answer := by
  let own : MapValue := ⟨map[key]?, .ofSiblings (siblingsOf (sha256 key) height (placed map))⟩
  have hvalue : own.value = map[key]? := rfl
  have hexpand : own.proof.expand = .ok (siblingsOf (sha256 key) height (placed map)) :=
    CompressedProof.expand_ofSiblings (length_siblingsOf _ _ _)
  have hverify := (verify_placed hinj apart).1
  rw [← hroot] at hverify
  obtain ⟨answer, hcheck, htells⟩ := checkAnswer_of_verify entries hvalue hexpand hverify
  refine ⟨answer, htells, ?_⟩
  simp only [query, hhead]
  exact hcheck

/-- **An answer that is taken** under the root of a map tells what the map has, whoever gave it. The
ways out are a collision among the strings hashed for the map and for the proof, and a value that
hashes to the 32 zero bytes of an absent one: the one given, or the one that the map has where none was
given, as no proof can tell it from an absent one. -/
theorem tells_of_query {cache : HeadCache} (hhead : cache.head? = some head)
    (hroot : head.mapRoot = keyedRoot map) (entries : HasEntries map)
    {ask : Digest → Except ApiError MapValue} (h : cache.query key ask = .ok answer) :
    Tells map key answer ∨ ∃ found siblings, ask head.mapRoot = .ok found ∧
      found.proof.expand = .ok siblings ∧
      (CollisionBetween (answerInputs map siblings key found.value)
          (answerInputs map siblings key found.value) ∨
        HashesToZero found.value ∨ (answer = none ∧ HashesToZero map[key]?)) := by
  obtain ⟨found, hask, hcheck⟩ := answer_of_query hhead h
  obtain ⟨siblings, hexpand, hverify, hnone⟩ := checkAnswer_cases hcheck
  rcases injOn_or_collision (answerInputs map siblings key found.value) with hinj | hcol
  case inr => exact Or.inr ⟨found, siblings, hask, hexpand, Or.inl hcol⟩
  have hgiven : verifyInputs siblings key found.value ⊆ answerInputs map siblings key found.value :=
    Set.subset_union_right
  have hmap : keyedInputs map ⊆ answerInputs map siblings key found.value := Set.subset_union_left
  have hkey := hgiven (Set.mem_insert key _)
  obtain ⟨hown, hsub⟩ := verify_placed (hinj.mono (Set.subset_union_left.trans hmap))
    (apart_of_injOn hinj hmap hkey)
  rw [← hroot] at hown
  rcases verify_cases hverify hown with ⟨hsame, -⟩ | hcol | ⟨hzero, -⟩ | ⟨hvalue, hzero⟩
  · rw [hsame] at hverify
    obtain ⟨told, htold, htells⟩ := checkAnswer_of_verify entries hsame hexpand hverify
    rw [Except.ok.inj (hcheck.symm.trans htold)]
    exact Or.inl htells
  · refine Or.inr ⟨found, siblings, hask, hexpand, Or.inl (hcol.mono hgiven ?_)⟩
    exact hsub.trans (Set.insert_subset hkey hmap)
  · exact Or.inr ⟨found, siblings, hask, hexpand, Or.inr (Or.inl hzero)⟩
  · exact Or.inr ⟨found, siblings, hask, hexpand, Or.inr (Or.inr ⟨hnone hvalue, hzero⟩)⟩

end Answers

end HeadCache

/-! ## Answers of the log itself -/

namespace Ledger

/-- The map under a head: the one of the pairs that the head is over. -/
def mapUnder (pairs : List Record) (head : TreeHead) : KeyMap :=
  mapOf (pairs.take head.treeSize.toNat)

end Ledger

theorem ServedLog.read_of_mapValue {log : ServedLog} {key : Bytes} {root : Digest}
    {value : Option Bytes} {siblings : List Digest}
    (h : Ledger.mapValue log.store key root = .ok (value, siblings)) :
    log.read (.mapValue key root) = .ok ⟨value, .ofSiblings siblings⟩ := by
  simp only [read, answer, h]
  rfl

namespace SharedLog

section Answers

variable {name : String} {signer : Signer} {log : SharedLog} {pairs : List Record}
  {heads : List TreeHead} {roots : List Digest} {head : TreeHead} {key : Bytes}

/-- What the map under a head has are entries. -/
theorem Sound.hasEntries (h : Sound signer log pairs heads roots) (head : TreeHead) :
    HeadCache.HasEntries (mapUnder pairs head) := by
  intro key value hget
  obtain ⟨index, hindex, -, rfl⟩ := exists_of_mapOf hget
  refine ⟨_, ?_, rfl⟩
  have hfits := h.tracks.fits _ (List.mem_of_mem_take (List.getElem_mem hindex))
  have hmax : Record.maxPayload < UInt64.size := by decide
  show (pairs.take head.treeSize.toNat)[index].value.length < UInt64.size
  omega

/-- **The log's own answer** under a head that it has issued is what the map of the head has, with a
proof that shows it. -/
theorem Sound.read_mapValue (h : Sound signer log pairs heads roots) (hmem : head ∈ heads)
    (hinj : Set.InjOn sha256 (insert key (versionInputs (versionsOf pairs))))
    (hzero : ¬ HashesToZero (mapUnder pairs head)[key]?) :
    head.mapRoot = keyedRoot (mapUnder pairs head) ∧ ∃ siblings, siblings.length = height ∧
      verify siblings head.mapRoot key (mapUnder pairs head)[key]? = true ∧
      log.served.read (.mapValue key head.mapRoot) =
        .ok ⟨(mapUnder pairs head)[key]?, .ofSiblings siblings⟩ := by
  obtain ⟨hroot, siblings, hlen, hverify, hvalue⟩ := h.mapValue_eq hmem hinj hzero
  exact ⟨hroot, siblings, hlen, hverify, ServedLog.read_of_mapValue hvalue⟩

end Answers

/-- **The log answers for good.** A follower that trusts a head which the log has issued gets the right
answer for every key, whatever has been committed since. The ways out are a collision among the strings
hashed for the key and for the maps of the log, and a recorded value that hashes to 32 zero bytes. -/
theorem query_of_reaches {name : String} {signer : Signer} {log : SharedLog} {pairs : List Record}
    {heads : List TreeHead} (h : Reaches name signer log pairs heads) {head : TreeHead}
    (hmem : head ∈ heads) {cache : HeadCache} (hhead : cache.head? = some head) (key : Bytes) :
    (head.mapRoot = keyedRoot (mapUnder pairs head) ∧ ∃ answer,
      cache.query key (fun root => log.served.read (.mapValue key root)) = .ok answer ∧
      HeadCache.Tells (mapUnder pairs head) key answer) ∨
    CollisionBetween (insert key (versionInputs (versionsOf pairs)))
      (insert key (versionInputs (versionsOf pairs))) ∨
    HashesToZero (mapUnder pairs head)[key]? := by
  obtain ⟨roots, sound⟩ := sound_of_reaches h
  rcases injOn_or_collision (insert key (versionInputs (versionsOf pairs))) with hinj | hcol
  case inr => exact Or.inr (Or.inl hcol)
  by_cases hzero : HashesToZero (mapUnder pairs head)[key]?
  · exact Or.inr (Or.inr hzero)
  obtain ⟨hroot, siblings, hlen, hverify, hread⟩ := sound.read_mapValue hmem hinj hzero
  let found : MapValue := ⟨(mapUnder pairs head)[key]?, .ofSiblings siblings⟩
  have hvalue : found.value = (mapUnder pairs head)[key]? := rfl
  have hexpand : found.proof.expand = .ok siblings := CompressedProof.expand_ofSiblings hlen
  obtain ⟨answer, hcheck, htells⟩ :=
    HeadCache.checkAnswer_of_verify (sound.hasEntries head) hvalue hexpand hverify
  refine Or.inl ⟨hroot, answer, ?_, htells⟩
  simp only [HeadCache.query, hhead, hread]
  exact hcheck

end SharedLog

namespace HeadCache

/-- **Checked answers are recorded ones.** Under a head whose map root is that of a map of entries, an
answer that is taken is what the map has under the key, whatever value, depth, bitmap and siblings were
given; the ways out are those of `tells_of_query`. And a log answers for every head that it has issued,
for every key, whatever has been committed since; the ways out are those of `SharedLog.query_of_reaches`. -/
theorem query_recorded :
    (∀ (map : KeyMap) (head : TreeHead) (cache : HeadCache), HasEntries map →
      head.mapRoot = keyedRoot map → cache.head? = some head →
      ∀ (ask : Digest → Except ApiError MapValue) (key : Bytes) (answer : Option String),
        cache.query key ask = .ok answer →
        Tells map key answer ∨ ∃ found siblings, ask head.mapRoot = .ok found ∧
          found.proof.expand = .ok siblings ∧
          (CollisionBetween (answerInputs map siblings key found.value)
              (answerInputs map siblings key found.value) ∨
            HashesToZero found.value ∨ (answer = none ∧ HashesToZero map[key]?))) ∧
    ∀ (name : String) (signer : Signer) (log : SharedLog) (pairs : List Record)
      (heads : List TreeHead), SharedLog.Reaches name signer log pairs heads → ∀ head ∈ heads,
      ∀ cache : HeadCache, cache.head? = some head → ∀ key : Bytes,
        (head.mapRoot = keyedRoot (mapUnder pairs head) ∧ ∃ answer,
          cache.query key (fun root => log.served.read (.mapValue key root)) = .ok answer ∧
          Tells (mapUnder pairs head) key answer) ∨
        CollisionBetween (insert key (versionInputs (versionsOf pairs)))
          (insert key (versionInputs (versionsOf pairs))) ∨
        HashesToZero (mapUnder pairs head)[key]? := by
  constructor
  · intro map head cache entries hroot hhead ask key answer hquery
    exact tells_of_query hhead hroot entries hquery
  · intro name signer log pairs heads reaches head hmem cache hhead key
    exact SharedLog.query_of_reaches reaches hmem hhead key

/-- The map of one key gives its own answer. A log that has taken a second pair is asked for the keys of
both under its head over the first. -/
theorem query_recorded_later_batch :
    (∃ (map : KeyMap) (cache : HeadCache) (ask : Digest → Except ApiError MapValue)
      (answer : Option String), map = (∅ : KeyMap).insert [1] (MapEntry.mk [2] 0).encode ∧
      cache.query [1] ask = .ok answer ∧
      (Tells map [1] answer ∨ ∃ found siblings, ask (keyedRoot map) = .ok found ∧
        found.proof.expand = .ok siblings ∧
        (CollisionBetween (answerInputs map siblings [1] found.value)
            (answerInputs map siblings [1] found.value) ∨
          HashesToZero found.value ∨ (answer = none ∧ HashesToZero map[([1] : Bytes)]?)))) ∧
    ∃ (log : SharedLog) (genesis one two : TreeHead) (cache : HeadCache),
      SharedLog.Reaches "log" Signer.mirror log [⟨[1], [5]⟩, ⟨[2], [6]⟩] [genesis, one, two] ∧
      log.ledger.head = two ∧ cache.head? = some one ∧
      ((∃ text, cache.query [1] (fun root => log.served.read (.mapValue [1] root)) = .ok (some text) ∧
          Tells (mapUnder [⟨[1], [5]⟩, ⟨[2], [6]⟩] one) [1] (some text)) ∧
        cache.query [2] (fun root => log.served.read (.mapValue [2] root)) = .ok none ∨
        ∃ key, CollisionBetween
          (insert key (versionInputs (versionsOf [⟨[1], [5]⟩, ⟨[2], [6]⟩])))
          (insert key (versionInputs (versionsOf [⟨[1], [5]⟩, ⟨[2], [6]⟩])))) := by
  constructor
  · obtain ⟨map, hmap⟩ : ∃ map, map = (∅ : KeyMap).insert [1] (MapEntry.mk [2] 0).encode :=
      ⟨_, rfl⟩
    have hone : ∀ key value : Bytes, map[key]? = some value →
        key = [1] ∧ value = (MapEntry.mk [2] 0).encode := by
      intro key value hget
      rw [hmap, Std.ExtTreeMap.getElem?_insert, Std.ExtTreeMap.getElem?_empty] at hget
      by_cases heq : compare [1] key = .eq
      · rw [if_pos heq] at hget
        exact ⟨(Std.LawfulEqCmp.eq_of_compare heq).symm, (Option.some.inj hget).symm⟩
      · rw [if_neg heq] at hget
        cases hget
    have entries : HasEntries map := fun key value hget => ⟨_, by decide, (hone key value hget).2⟩
    have hkeys : ∀ key ∈ map, key = [1] := fun key hmem =>
      (hone key _ (Std.ExtTreeMap.getElem?_eq_some_getElem hmem)).1
    have hinj : Set.InjOn sha256 {key | key ∈ map} := by
      intro key hkey other hother _
      rw [hkeys key hkey, hkeys other hother]
    let head : TreeHead := ⟨1, emptyRoot, keyedRoot map, []⟩
    let cache : HeadCache := ⟨"log", ⟨[], none, fun _ _ => true⟩, some ⟨head, "now"⟩⟩
    have hhead : cache.head? = some head := rfl
    obtain ⟨answer, -, hquery⟩ := query_own hhead rfl entries hinj
      (show Apart [1] map from fun other hother _ => hkeys other hother)
    exact ⟨map, cache, _, answer, hmap, hquery,
      query_recorded.1 map head cache entries rfl hhead _ _ _ hquery⟩
  · obtain ⟨g⟩ := exists_grown_one_two "log" (show Store.inMemory.contents = ∅ from rfl)
      Store.clear_inMemory
    have reaches := g.reaches_two rfl
    have hone : (mapUnder [⟨[1], [5]⟩, ⟨[2], [6]⟩] g.one)[([1] : Bytes)]? =
        some (MapEntry.mk [5] 0).encode := by
      rw [mapUnder, g.treeSize_one]
      rfl
    have htwo : (mapUnder [⟨[1], [5]⟩, ⟨[2], [6]⟩] g.one)[([2] : Bytes)]? = none := by
      rw [mapUnder, g.treeSize_one]
      rfl
    have hmem : g.one ∈ [g.genesis, g.one, g.two] := List.mem_cons_of_mem _ List.mem_cons_self
    let cache : HeadCache := ⟨"log", Signer.mirror, some ⟨g.one, "now"⟩⟩
    refine ⟨_, g.genesis, g.one, g.two, cache, reaches, rfl, rfl, ?_⟩
    rcases query_recorded.2 _ _ _ _ _ reaches g.one hmem cache rfl [1] with
      ⟨-, answer, hquery, htells⟩ | hcol | hzero
    case inr.inl => exact Or.inr ⟨_, hcol⟩
    case inr.inr =>
      rw [hone] at hzero
      obtain ⟨_, ⟨⟩, hzero⟩ := hzero
      exact absurd hzero (nonzero_one_two ([1], _) List.mem_cons_self)
    rcases query_recorded.2 _ _ _ _ _ reaches g.one hmem cache rfl [2] with
      ⟨-, answer', hquery', htells'⟩ | hcol | hzero
    case inr.inl => exact Or.inr ⟨_, hcol⟩
    case inr.inr =>
      rw [htwo] at hzero
      obtain ⟨_, ⟨⟩, -⟩ := hzero
    refine Or.inl ⟨?_, ?_⟩
    · cases answer with
      | none => exact absurd (mem_of_getElem? hone) htells
      | some text => exact ⟨text, hquery, htells⟩
    · cases answer' with
      | none => exact hquery'
      | some text =>
        obtain ⟨entry, hentry, -⟩ := htells'
        cases htwo.symm.trans hentry

end HeadCache

end TransparencyLog
