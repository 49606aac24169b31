import Mathlib.Data.List.Nodup
import Mathlib.Data.List.Perm.Subperm
import TransparencyLog.Daemon.Basic
import TransparencyLog.Proofs.Follow.Answers
import TransparencyLog.Proofs.Quorum.Agreement

/-!
# Every log is accounted for

The queries of a survey end in any order, and each end is put back to its log by the number of the
query. No log is lost and none is counted twice, whatever the logs answer and whichever queries die: in
the order of the names, each log is either among the responses, exactly if its answer was proven under
the head trusted for it, or among the misses. What is decided, and what is told when nothing can be
decided, is about these two lists, and neither depends on the order in which the queries end.

* `Query.Verified`: the log has answered with a proven value;
* `Survey.gather_perm`: the ends of all queries, put back to their logs;
* `Survey.Accounts`: each log once, and nothing else;
* **`Survey.accounts_in_any_order`**: surveys account for all logs, whatever the order;
* `Daemon.accounts_survey`: the survey of a daemon.
-/

namespace TransparencyLog

/-! ## One query -/

namespace Query

variable {query : Query} {queries : List Query} {key : Bytes} {hash : String}

/-- The log has answered with a value that is proven under the head trusted for it. -/
def Verified (query : Query) (key : Bytes) (hash : String) : Prop :=
  ∃ ask head found siblings bytes entry, query.ask = some ask ∧ query.cache.head? = some head ∧
    ask head.mapRoot = .ok found ∧ found.proof.expand = .ok siblings ∧
    SparseMap.verify siblings head.mapRoot key found.value = true ∧ found.value = some bytes ∧
    MapEntry.decode bytes = .ok entry ∧ hash = Hex.encode entry.value

theorem checkAnswer_eq_some_iff {head : TreeHead} {found : MapValue} :
    checkAnswer head key found = .ok (some hash) ↔ ∃ siblings bytes entry,
      found.proof.expand = .ok siblings ∧
      SparseMap.verify siblings head.mapRoot key found.value = true ∧ found.value = some bytes ∧
      MapEntry.decode bytes = .ok entry ∧ hash = Hex.encode entry.value := by
  unfold checkAnswer
  cases hexpand : found.proof.expand with
  | error e => simp
  | ok siblings =>
    by_cases hverify : SparseMap.verify siblings head.mapRoot key found.value = true
    · simp only [hverify, if_true, Except.ok.injEq, exists_and_left, exists_eq_left', true_and]
      cases found.value with
      | none => simp
      | some bytes => cases hdecode : MapEntry.decode bytes <;> simp [hdecode, eq_comm]
    · simp [hverify]

/-- A log is reported with a value exactly if it has answered with a proven one. -/
theorem report_eq_iff : (query.ended key).report = .ok (some hash) ↔ query.Verified key hash := by
  unfold Verified QueryEnd.report ended
  cases query.ask with
  | none => simp
  | some ask =>
    simp only [Option.map_some, Option.getD_some, HeadCache.query, Option.some.injEq,
      exists_and_left, exists_eq_left']
    cases query.cache.head? with
    | none => simp
    | some head =>
      cases hask : ask head.mapRoot with
      | error e => simp [hask]
      | ok found => simp [hask, checkAnswer_eq_some_iff]

/-- The name and the report of a log. -/
def told (query : Query) (key : Bytes) : String × Except QueryError (Option String) :=
  (query.logName, (query.ended key).report)

/-- Numbers that differ stand for their logs. -/
theorem getElem?_names (numbers : (queries.map Query.number).Nodup) (hmem : query ∈ queries) :
    (names queries)[query.number]? = some query.logName := by
  refine Std.ExtTreeMap.getElem?_ofList_of_mem Std.ReflCmp.compare_self ?_
    (List.mem_map_of_mem hmem)
  rw [List.pairwise_map]
  refine (List.pairwise_map.mp numbers).imp fun hne heq => hne ?_
  exact Std.LawfulEqCmp.compare_eq_iff_eq.mp heq

end Query

namespace Survey

variable {queries : List Query} {key : Bytes} {ended : List QueryEnd} {survey other : Survey}
  {name hash : String}

/-! ## Ends in any order -/

/-- Taking out the number of an end does not touch the others. -/
theorem gather_eq (numbers : (ended.map QueryEnd.number).Nodup)
    (names : Std.ExtTreeMap Nat String compare) : gather names ended =
      ended.filterMap fun e => names[e.number]?.map fun name => (name, e.report) := by
  induction ended generalizing names with
  | nil => rfl
  | cons e rest ih =>
    obtain ⟨hfresh, hrest⟩ := List.nodup_cons.mp numbers
    rw [gather, List.filterMap_cons]
    cases names[e.number]? with
    | none => exact ih hrest names
    | some name =>
      simp only [Option.map_some, ih hrest]
      congr 1
      refine List.filterMap_congr fun later hlater => ?_
      have hne : e.number ≠ later.number := fun heq => hfresh (heq ▸ List.mem_map_of_mem hlater)
      rw [Std.ExtTreeMap.getElem?_erase, if_neg fun h => hne (Std.LawfulEqCmp.compare_eq_iff_eq.mp h)]

/-- **All ends, put back to their logs**: one report for each log, in any order. -/
theorem gather_perm (numbers : (queries.map Query.number).Nodup)
    (complete : ended.Perm (queries.map fun query => query.ended key)) :
    (gather (Query.names queries) ended).Perm (queries.map fun query => query.told key) := by
  have hnumbers : (ended.map QueryEnd.number).Nodup := by
    rw [(complete.map QueryEnd.number).nodup_iff, List.map_map]
    exact numbers
  rw [gather_eq hnumbers]
  refine (complete.filterMap _).trans ?_
  rw [List.filterMap_map, ← List.filterMap_eq_map]
  refine List.Perm.of_eq (List.filterMap_congr fun query hquery => ?_)
  simp only [Function.comp_apply, Query.told]
  rw [show (query.ended key).number = query.number from rfl, Query.getElem?_names numbers hquery]
  rfl

theorem inOrder_perm (survey : Survey) : survey.inOrder.Perm survey := List.mergeSort_perm _ _

theorem ascending_inOrder (names : (survey.map Prod.fst).Nodup) :
    survey.inOrder.Pairwise fun a b => a.1 < b.1 := by
  have hsorted : survey.inOrder.Pairwise fun a b => a.1 ≤ b.1 :=
    pairwise_mergeSort_text Prod.fst survey
  have hdiffer : survey.inOrder.Pairwise fun a b => a.1 ≠ b.1 := by
    rw [← ((inOrder_perm survey).map Prod.fst).nodup_iff] at names
    exact List.pairwise_map.mp names
  refine (hsorted.and hdiffer).imp fun h => ?_
  exact String.not_le.mp fun hba => h.2 (String.le_antisymm h.1 hba)

/-- Reports that are the same but for their order are put in one order. -/
theorem inOrder_congr (names : (survey.map Prod.fst).Nodup) (h : survey.Perm other) :
    survey.inOrder = other.inOrder := by
  have hother : (other.map Prod.fst).Nodup := (h.map Prod.fst).nodup_iff.mp names
  refine List.Perm.eq_of_pairwise (fun a b _ _ hab hba => ?_) (ascending_inOrder names)
    (ascending_inOrder hother) ((inOrder_perm survey).trans (h.trans (inOrder_perm other).symm))
  exact absurd hba (String.lt_asymm hab)

/-! ## Responses and misses -/

theorem names_responses (survey : Survey) : survey.responses.map Quorum.Answer.logName =
    (survey.inOrder.filter fun told => (value? told.2).isSome).map Prod.fst := by
  unfold responses
  induction survey.inOrder with
  | nil => rfl
  | cons told rest ih =>
    obtain ⟨name, answer⟩ := told
    cases hvalue : value? answer <;> simp [hvalue, ih]

theorem misses_eq (survey : Survey) : survey.misses =
    (survey.inOrder.filter fun told => !(value? told.2).isSome).map Prod.fst := by
  unfold misses
  induction survey.inOrder with
  | nil => rfl
  | cons told rest ih =>
    obtain ⟨name, answer⟩ := told
    cases hvalue : value? answer <;> simpa [hvalue] using ih

/-- Each report is among the responses or among the misses. -/
theorem names_perm (survey : Survey) :
    (survey.responses.map Quorum.Answer.logName ++ survey.misses).Perm (survey.map Prod.fst) := by
  rw [names_responses, misses_eq, ← List.map_append]
  exact ((List.filter_append_perm _ _).trans (inOrder_perm survey)).map Prod.fst

theorem mem_responses : ⟨name, hash⟩ ∈ survey.responses ↔ (name, .ok (some hash)) ∈ survey := by
  rw [← (inOrder_perm survey).mem_iff, responses, List.mem_filterMap]
  constructor
  · rintro ⟨⟨name', answer⟩, hmem, heq⟩
    obtain ⟨value, hvalue, hsame⟩ := Option.map_eq_some_iff.mp heq
    cases hsame
    cases answer with
    | error e => cases hvalue
    | ok found =>
      cases hvalue
      exact hmem
  · exact fun hmem => ⟨_, hmem, rfl⟩

/-- The name and the value of a log that has one. -/
def hashOf (told : String × Except QueryError (Option String)) : Option (String × String) :=
  (value? told.2).map fun hash => (told.1, hash)

theorem foldl_tabulate (told : Survey) (table : Std.ExtTreeMap String String compare) :
    told.foldl tabulate table = table.insertMany (told.filterMap hashOf) := by
  induction told generalizing table with
  | nil => rfl
  | cons first rest ih =>
    rw [List.foldl_cons, ih, List.filterMap_cons]
    unfold tabulate hashOf
    cases value? first.2 with
    | none => rfl
    | some hash => exact Std.ExtTreeMap.insertMany_cons.symm

/-- A table filled in order is told in that order. -/
theorem toList_ofList {pairs : List (String × String)}
    (sorted : pairs.Pairwise fun a b => compare a.1 b.1 = .lt) :
    (Std.ExtTreeMap.ofList pairs compare).toList = pairs := by
  have hdistinct : pairs.Pairwise fun a b => ¬ compare a.1 b.1 = .eq :=
    sorted.imp fun h heq => by cases h.symm.trans heq
  have hsub : pairs ⊆ (Std.ExtTreeMap.ofList pairs compare).toList := fun pair hmem =>
    Std.ExtTreeMap.mem_toList_iff_getElem?_eq_some.mpr
      (Std.ExtTreeMap.getElem?_ofList_of_mem Std.ReflCmp.compare_self hdistinct hmem)
  have hnodup : pairs.Nodup := hdistinct.imp fun hne heq => by
    rw [heq] at hne
    exact hne Std.ReflCmp.compare_self
  have hlength : (Std.ExtTreeMap.ofList pairs compare).toList.length = pairs.length := by
    rw [Std.ExtTreeMap.length_toList, Std.ExtTreeMap.size_ofList hdistinct]
  refine List.Perm.eq_of_pairwise (fun a b _ _ hab hba => ?_) Std.ExtTreeMap.ordered_keys_toList
    sorted ((hnodup.subperm hsub).perm_of_length_le (Nat.le_of_eq hlength)).symm
  cases hba.symm.trans (Std.OrientedCmp.gt_of_lt hab)

/-- The values by log name are the responses. -/
theorem hashes_eq (names : (survey.map Prod.fst).Nodup) :
    survey.hashes = survey.responses.map fun response => (response.logName, response.outputHash) := by
  have hresponses : survey.responses.map (fun response => (response.logName, response.outputHash)) =
      survey.inOrder.filterMap hashOf := by
    unfold responses
    rw [List.map_filterMap]
    refine List.filterMap_congr fun told _ => ?_
    rw [Option.map_map]
    rfl
  have hsorted : (survey.inOrder.filterMap hashOf).Pairwise fun a b => compare a.1 b.1 = .lt := by
    refine (ascending_inOrder names).filterMap _ fun a b hab x hx y hy => ?_
    obtain ⟨_, -, rfl⟩ := Option.map_eq_some_iff.mp hx
    obtain ⟨_, -, rfl⟩ := Option.map_eq_some_iff.mp hy
    exact compareOfLessAndEq_eq_lt.mpr hab
  rw [hresponses, hashes, foldl_tabulate, ← Std.ExtTreeMap.ofList_eq_insertMany_empty]
  exact toList_ofList hsorted

/-! ## The whole survey -/

/-- A survey accounts for the logs of some queries. Responses and misses stand in ascending order of
the names and have each log once between them; a log responds exactly if its answer is proven. Whatever
is decided is decided by the responses and told with exactly those of them that differ, and with the
misses; otherwise all responses and misses are told. The values by log name are the responses. -/
structure Accounts (survey : Survey) (queries : List Query) (key : Bytes) : Prop where
  responses_ascend : (survey.responses.map Quorum.Answer.logName).Pairwise (· < ·)
  misses_ascend : survey.misses.Pairwise (· < ·)
  once : (survey.responses.map Quorum.Answer.logName ++ survey.misses).Perm
    (queries.map Query.logName)
  response_iff : ∀ query ∈ queries, ∀ hash : String,
    ⟨query.logName, hash⟩ ∈ survey.responses ↔ query.Verified key hash
  miss_iff : ∀ query ∈ queries,
    query.logName ∈ survey.misses ↔ ∀ hash : String, ¬ query.Verified key hash
  decided : ∀ (strategy : Quorum.Strategy) (found : Quorum.Correlation),
    survey.decide strategy = .ok found ↔
      strategy.decide survey.responses = .ok found.decision ∧ found.misses = survey.misses ∧
        found.mismatches =
          survey.responses.filter fun r => r.outputHash != found.decision.outputHash
  undecided : ∀ (strategy : Quorum.Strategy) (failure : Quorum.NoDecision),
    survey.decide strategy = .error failure ↔
      strategy.decide survey.responses = .error failure.cause ∧
        failure.responses = survey.responses ∧ failure.misses = survey.misses
  hashes_eq : survey.hashes = survey.responses.map fun r => (r.logName, r.outputHash)

section Accounts

variable (differ : (queries.map Query.logName).Nodup)
  (numbers : (queries.map Query.number).Nodup)
  (complete : ended.Perm (queries.map fun query => query.ended key))

include numbers complete in
theorem names_gather :
    ((gather (Query.names queries) ended).map Prod.fst).Perm (queries.map Query.logName) := by
  have h := (gather_perm numbers complete).map Prod.fst
  rwa [List.map_map] at h

include differ numbers complete in
theorem nodup_gather : ((gather (Query.names queries) ended).map Prod.fst).Nodup :=
  (names_gather numbers complete).nodup_iff.mpr differ

include differ numbers complete in
/-- Names differ, so the report under a log's name is the one of its query. -/
theorem mem_gather {query : Query} (hmem : query ∈ queries)
    {report : Except QueryError (Option String)} :
    (query.logName, report) ∈ gather (Query.names queries) ended ↔
      report = (query.ended key).report := by
  rw [(gather_perm numbers complete).mem_iff, List.mem_map]
  constructor
  · rintro ⟨other, hother, heq⟩
    obtain ⟨hname, rfl⟩ := Prod.mk.inj heq
    rw [List.inj_on_of_nodup_map differ hother hmem hname]
  · rintro rfl
    exact ⟨query, hmem, rfl⟩

include differ numbers complete in
theorem accounts_gather : (gather (Query.names queries) ended).Accounts queries key := by
  have hnames := nodup_gather differ numbers complete
  have honce := (names_perm _).trans (names_gather numbers complete)
  have hresponse : ∀ query ∈ queries, ∀ hash : String,
      ⟨query.logName, hash⟩ ∈ (gather (Query.names queries) ended).responses ↔
        query.Verified key hash := by
    intro query hmem hash
    rw [mem_responses, mem_gather differ numbers complete hmem, eq_comm, Query.report_eq_iff]
  have hascend := ascending_inOrder hnames
  refine ⟨?_, ?_, honce, hresponse, ?_, ?_, ?_, hashes_eq hnames⟩
  · rw [names_responses, List.pairwise_map]
    exact hascend.filter _
  · rw [misses_eq, List.pairwise_map]
    exact hascend.filter _
  · intro query hmem
    have hnodup := honce.nodup_iff.mpr differ
    have hone := List.disjoint_of_nodup_append hnodup
    constructor
    · intro hmiss hash hverified
      exact hone (List.mem_map_of_mem ((hresponse query hmem hash).mpr hverified)) hmiss
    · intro hnone
      rcases List.mem_append.mp (honce.mem_iff.mpr (List.mem_map_of_mem hmem)) with hin | hmiss
      · obtain ⟨⟨name, hash⟩, hanswer, rfl⟩ := List.mem_map.mp hin
        exact absurd ((hresponse query hmem hash).mp hanswer) (hnone hash)
      · exact hmiss
  · exact fun strategy found => Quorum.correlate_eq_ok_iff
  · exact fun strategy failure => Quorum.correlate_eq_error_iff

end Accounts

/-- **Every log is accounted for, in any order.** Of all queries to caches of different names, however
the logs answer and whichever queries die, the ends are put together to a survey that accounts for
every log once. The same logs, asked under any other numbers and ending in any other order, lead to the
same decision and to the same values. -/
theorem accounts_in_any_order (differ : (queries.map Query.logName).Nodup)
    (numbers : (queries.map Query.number).Nodup)
    (complete : ended.Perm (queries.map fun query => query.ended key)) :
    (gather (Query.names queries) ended).Accounts queries key ∧
      ∀ (others : List Query) (ended' : List QueryEnd), (others.map Query.number).Nodup →
        (others.map fun query => (query.cache, query.ask)).Perm
          (queries.map fun query => (query.cache, query.ask)) →
        ended'.Perm (others.map fun query => query.ended key) →
        (∀ strategy, (gather (Query.names others) ended').decide strategy =
          (gather (Query.names queries) ended).decide strategy) ∧
        (gather (Query.names others) ended').hashes =
          (gather (Query.names queries) ended).hashes := by
  refine ⟨accounts_gather differ numbers complete, ?_⟩
  intro others ended' numbers' same complete'
  have hsame : (gather (Query.names queries) ended).inOrder =
      (gather (Query.names others) ended').inOrder := by
    refine inOrder_congr (nodup_gather differ numbers complete) ?_
    -- What is told of a query depends on its cache and on the answers, not on its number.
    have htold := (same.map fun (cache, ask) => (Query.mk 0 cache ask).told key).symm
    rw [List.map_map, List.map_map] at htold
    exact (gather_perm numbers complete).trans (htold.trans (gather_perm numbers' complete').symm)
  constructor
  · intro strategy
    simp only [decide, responses, misses, hsame]
  · simp only [hashes, hsame]

/-- Four logs are asked. The last one has a value under the key and proves it. The third one has no
trusted head, the second query dies, and the first call takes too long; they end in the opposite order. -/
theorem accounts_in_any_order_one_response : ∃ (queries : List Query) (signer : Signer)
    (head : TreeHead) (found : MapValue),
    queries = [⟨4, ⟨"c", signer, some ⟨head, "now"⟩⟩, some fun _ => .error .timeout⟩,
      ⟨7, ⟨"a", signer, some ⟨head, "now"⟩⟩, none⟩,
      ⟨2, ⟨"b", signer, none⟩, some fun _ => .error .task⟩,
      ⟨5, ⟨"d", signer, some ⟨head, "now"⟩⟩, some fun _ => .ok found⟩] ∧
    (gather (Query.names queries) (queries.map fun query => query.ended [1]).reverse).Accounts
      queries [1] ∧
    ⟨"d", "02"⟩ ∈ (gather (Query.names queries)
      (queries.map fun query => query.ended [1]).reverse).responses ∧
    ∀ strategy,
      (gather (Query.names queries) (queries.map fun query => query.ended [1])).decide strategy =
        (gather (Query.names queries)
          (queries.map fun query => query.ended [1]).reverse).decide strategy := by
  let signer : Signer := ⟨[], none, fun _ _ => true⟩
  let entry : MapEntry := ⟨[2], 0⟩
  let tree (path : List Bool) : Option Bytes :=
    if path = (sha256 [1]).path SparseMap.height then some entry.encode else none
  let siblings := SparseMap.siblingsOf (sha256 [1]) SparseMap.height tree
  let head : TreeHead := ⟨1, emptyRoot, SparseMap.treeRoot SparseMap.height tree, []⟩
  let found : MapValue := ⟨some entry.encode, .ofSiblings siblings⟩
  let last : Query := ⟨5, ⟨"d", signer, some ⟨head, "now"⟩⟩, some fun _ => .ok found⟩
  let queries : List Query :=
    [⟨4, ⟨"c", signer, some ⟨head, "now"⟩⟩, some fun _ => .error .timeout⟩,
      ⟨7, ⟨"a", signer, some ⟨head, "now"⟩⟩, none⟩,
      ⟨2, ⟨"b", signer, none⟩, some fun _ => .error .task⟩, last]
  have hverify : SparseMap.verify siblings head.mapRoot [1] (some entry.encode) = true := by
    have hown := SparseMap.verify_siblingsOf [1] tree
    rwa [show tree ((sha256 [1]).path SparseMap.height) = some entry.encode from if_pos rfl] at hown
  have hverified : last.Verified [1] "02" :=
    ⟨_, head, found, siblings, _, entry, rfl, rfl, rfl,
      CompressedProof.expand_ofSiblings (SparseMap.length_siblingsOf _ _ _), hverify, rfl,
      MapEntry.decode_encode (by decide), rfl⟩
  have differ : (queries.map Query.logName).Nodup := by decide
  have numbers : (queries.map Query.number).Nodup := by decide
  obtain ⟨accounts, same⟩ := accounts_in_any_order differ numbers (List.reverse_perm _)
  refine ⟨queries, signer, head, found, rfl, accounts, ?_, (same queries _ numbers (.refl _) (.refl _)).1⟩
  exact (accounts.response_iff last (by simp [queries]) "02").mpr hverified

end Survey

/-- The survey of a daemon whose logs have different names accounts for them. -/
theorem Daemon.accounts_survey {daemon : Daemon} (differ : daemon.logNames.Nodup)
    (around : Surroundings) (key : Bytes) :
    (daemon.survey around key).Accounts (daemon.queries around key) key := by
  have hnames : (daemon.queries around key).map Query.logName = daemon.logNames := by
    unfold queries logNames
    rw [List.mapIdx_eq_zipIdx_map, List.map_map, ← List.zipIdx_map_fst 0 daemon.followed, List.map_map]
    simp [Function.comp_def, Query.logName]
  have hnumbers : (daemon.queries around key).map Query.number = List.range daemon.followed.length := by
    unfold queries
    rw [List.mapIdx_eq_zipIdx_map, List.map_map, List.range_eq_range',
      ← List.zipIdx_map_snd 0 daemon.followed]
    rfl
  refine Survey.accounts_gather ?_ ?_ (.refl _)
  · rw [hnames]
    exact differ
  · rw [hnumbers]
    exact List.nodup_range

end TransparencyLog
