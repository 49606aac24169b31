import TransparencyLog.Proofs.Tree.Nodes

/-!
# A log that grows

A log is grown leaf by leaf, in one transaction or in several, on a store that holds the leaves so
far and may hold anything beyond them. Data that does not fit is refused and changes nothing. After
every leaf the stored nodes, the leaves' data and the roots at all sizes are those of the list, as if
they had been computed from the whole list.

* `Writing`, `Writing.append`, `Writing.commit`: a log in the hands of its writer;
* `Writing.run`: appending and committing in any order;
* `answersFrom`, `appendedBy`: the indices to expect, and the leaves that are appended;
* **`run_grows`**: every run grows the list.
-/

namespace TransparencyLog.Tree

/-- A log in the hands of its writer: the view of it and the transaction at hand. -/
structure Writing where
  log : LogView
  draft : Draft

namespace Writing

/-- Appends a leaf and tells its index, or why not; then everything stays. -/
def append (writing : Writing) (data : Bytes) : Except LogError Nat × Writing :=
  match writing.log.append data writing.draft with
  | .ok (log, draft) => (.ok writing.log.size, ⟨log, draft⟩)
  | .error error => (.error error, writing)

/-- Commits the transaction and starts another one. -/
def commit (writing : Writing) : Writing := ⟨writing.log, ⟨writing.draft.merged, ∅⟩⟩

/-- What a writer can do. -/
inductive Step
  | append (data : Bytes)
  | commit

/-- Takes one step after another, also after a refusal. Gives the answers to the appends. -/
def run (writing : Writing) : List Step → List (Except LogError Nat) × Writing
  | [] => ([], writing)
  | .append data :: steps =>
    let (answer, next) := writing.append data
    let (answers, last) := next.run steps
    (answer :: answers, last)
  | .commit :: steps => writing.commit.run steps

/-- The answers to expect: consecutive indices for data that fits, and a refusal for longer data. -/
def answersFrom : Nat → List Step → List (Except LogError Nat)
  | _, [] => []
  | next, .append data :: steps =>
    if data.length ≤ Framing.maxField then .ok next :: answersFrom (next + 1) steps
    else .error (.recordTooLarge data.length) :: answersFrom next steps
  | next, .commit :: steps => answersFrom next steps

/-- The data that fits, in order. -/
def appendedBy : List Step → List Bytes
  | [] => []
  | .append data :: steps =>
    if data.length ≤ Framing.maxField then data :: appendedBy steps else appendedBy steps
  | .commit :: steps => appendedBy steps

/-! ## One step -/

theorem append_of_le {leaves : List Bytes} {draft : Draft} (h : Holds draft.get? leaves)
    {data : Bytes} (hdata : data.length ≤ Framing.maxField) :
    ∃ draft', append ⟨⟨leaves.length⟩, draft⟩ data =
        (.ok leaves.length, ⟨⟨(leaves ++ [data]).length⟩, draft'⟩) ∧
      Holds draft'.get? (leaves ++ [data]) := by
  obtain ⟨draft', hrun, hheld, _⟩ := append_holds h hdata
  refine ⟨draft', ?_, hheld⟩
  rw [append, hrun, List.length_append]
  rfl

theorem append_of_lt {data : Bytes} (h : Framing.maxField < data.length) (writing : Writing) :
    writing.append data = (.error (.recordTooLarge data.length), writing) := by
  rw [append, append_error h]

theorem get?_commit (writing : Writing) : writing.commit.draft.get? = writing.draft.get? := by
  rw [commit, Draft.get?_base]
  funext address
  exact writing.draft.getElem?_merged address

/-! ## Every run -/

/-- The list that a run leaves in the store, with the answers on the way. -/
theorem run_spec {leaves : List Bytes} {draft : Draft} (h : Holds draft.get? leaves)
    (steps : List Step) : ∃ draft', run ⟨⟨leaves.length⟩, draft⟩ steps =
        (answersFrom leaves.length steps, ⟨⟨(leaves ++ appendedBy steps).length⟩, draft'⟩) ∧
      Holds draft'.get? (leaves ++ appendedBy steps) := by
  induction steps generalizing leaves draft with
  | nil =>
    rw [appendedBy, List.append_nil]
    exact ⟨draft, rfl, h⟩
  | cons step steps ih =>
    cases step with
    | append data =>
      by_cases hdata : data.length ≤ Framing.maxField
      · obtain ⟨between, happend, hbetween⟩ := append_of_le h hdata
        obtain ⟨draft', hrun, hheld⟩ := ih hbetween
        have hlength : (leaves ++ [data]).length = leaves.length + 1 := List.length_append
        rw [hlength] at happend hrun
        rw [List.append_assoc, List.singleton_append] at hrun hheld
        rw [appendedBy, if_pos hdata, answersFrom, if_pos hdata, run, happend]
        refine ⟨draft', ?_, hheld⟩
        simp only [hrun]
      · obtain ⟨draft', hrun, hheld⟩ := ih h
        rw [appendedBy, if_neg hdata, answersFrom, if_neg hdata, run,
          append_of_lt (Nat.not_le.mp hdata)]
        refine ⟨draft', ?_, hheld⟩
        simp only [hrun]
    | commit =>
      rw [← get?_commit ⟨⟨leaves.length⟩, draft⟩] at h
      exact ih h

/-- **Every run grows the list.** From a store that holds a list, whatever it has beyond it, data
that fits is appended under the next index; the nodes, the leaves and the roots at all sizes are then
those of the longer list. Longer data is refused on any store, and the log keeps its size. -/
theorem run_grows {leaves : List Bytes} {draft : Draft} (h : Holds draft.get? leaves)
    (steps : List Step) :
    (∃ log draft', run ⟨⟨leaves.length⟩, draft⟩ steps =
        (answersFrom leaves.length steps, ⟨log, draft'⟩) ∧
      log.size = (leaves ++ appendedBy steps).length ∧
      Holds draft'.get? (leaves ++ appendedBy steps) ∧
      (∀ index data, (leaves ++ appendedBy steps)[index]? = some data →
        log.leaf draft'.get? index = .ok data) ∧
      (∀ size ≤ (leaves ++ appendedBy steps).length,
        log.rootAt draft'.get? size = .ok (rootOf ((leaves ++ appendedBy steps).take size))) ∧
      log.rootAt draft'.get? 0 = .ok (sha256 [])) ∧
    ∀ (writing : Writing) (data : Bytes), Framing.maxField < data.length →
      writing.append data = (.error (.recordTooLarge data.length), writing) := by
  obtain ⟨draft', hrun, hheld⟩ := run_spec h steps
  refine ⟨⟨_, draft', hrun, rfl, hheld, ?_, ?_, ?_⟩, fun writing data hlong =>
    append_of_lt hlong writing⟩
  · intro index data hdata
    obtain ⟨hindex, rfl⟩ := List.getElem?_eq_some_iff.mp hdata
    exact leaf_eq hheld hindex hindex
  · intro size hsize
    exact rootAt_eq hheld hsize hsize
  · have hempty := rootAt_eq hheld (Nat.zero_le (leaves ++ appendedBy steps).length) (Nat.zero_le _)
    rwa [List.take_zero, rootOf_nil] at hempty

/-- A store that has three leaves is taken for one with the first of them: two others are appended
behind it, in two transactions and with an attempt in between that does not fit. -/
theorem run_grows_over_old_nodes :
    ∃ draft : Draft, Holds draft.get? [[1]] ∧ draft.get? (address 1 0) ≠ none ∧ ∃ log draft',
      run ⟨⟨1⟩, draft⟩ [.append [9], .commit, .append (List.replicate 65536 0), .append [8]] =
        ([.ok 1, .error (.recordTooLarge 65536), .ok 2], ⟨log, draft'⟩) ∧
      log.rootAt draft'.get? 3 = .ok (rootOf [[1], [9], [8]]) := by
  have hfit : ∀ data ∈ ([[1], [2], [3]] : List Bytes), data.length ≤ Framing.maxField := by decide
  obtain ⟨draft, _, happended⟩ := appendAll_appended hfit ⟨∅, ∅⟩
  have hheld := happended.holds
  have hone : Holds draft.get? [[1]] := hheld.take (show 1 ≤ 3 by decide)
  have hnode : draft.get? (address 1 0) ≠ none := by
    intro hnone
    have hdigest := hheld.digest_eq 1 0 (by decide)
    rw [address] at hnone
    rw [digest, node, Snapshot.fetch, hnone] at hdigest
    cases hdigest
  have hlength : (List.replicate 65536 (0 : UInt8)).length = 65536 := List.length_replicate
  -- The long data is a variable from here on, so that nothing writes out its bytes.
  generalize List.replicate 65536 (0 : UInt8) = long at hlength ⊢
  have hlong : ¬ 65536 ≤ Framing.maxField := by decide
  have hshort : ∀ byte : UInt8, [byte].length ≤ Framing.maxField := by
    intro byte
    rw [List.length_singleton]
    decide
  obtain ⟨⟨log, draft', hrun, _, _, _, hroot, _⟩, _⟩ := run_grows hone
    [.append [9], .commit, .append long, .append [8]]
  simp only [answersFrom, appendedBy, hlength, if_neg hlong, if_pos (hshort _)] at hrun hroot
  exact ⟨draft, hone, hnode, log, draft', hrun, hroot 3 (by decide)⟩

end Writing

end TransparencyLog.Tree
