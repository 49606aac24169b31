import Mathlib.Data.List.Forall2
import TransparencyLog.Proofs.Quorum.Leaves

/-!
# Falling back

An aggregate asks its members in order and falls back on the next one where a member gives no decision.
So it does not matter how aggregates are nested: what decides is the first leaf that can. Where no leaf
can, each aggregate tells of each of its members why.

* `Quorum.Strategy.FirstDecides`: the decision of the first leaf that gives one;
* `Quorum.Strategy.Flattened`: an aggregate among the members gives way to its own members;
* `Quorum.Strategy.Failures`: the names and errors of the members of an aggregate;
* `Quorum.Strategy.decideFirst_eq_error_iff`: what an aggregate that fails lists;
* **`Quorum.Strategy.decide_first_success`**: strategies of any depth.
-/

namespace TransparencyLog.Quorum

namespace DecisionError

theorem failureTexts_eq (failures : List (String × DecisionError)) : failureTexts failures =
    failures.map fun failure => failure.1 ++ ": " ++ failure.2.message := by
  induction failures with
  | nil => rfl
  | cons failure rest ih =>
    rw [List.map_cons, ← ih]
    rfl

/-- The text of an aggregate's error names each member and has the text of its error. -/
theorem message_aggregate (failures : List (String × DecisionError)) :
    (aggregate failures).message = "encountered errors while deciding: " ++
      String.intercalate "; " (failures.map fun failure => failure.1 ++ ": " ++ failure.2.message) := by
  rw [← failureTexts_eq]
  rfl

end DecisionError

namespace Strategy

variable {answers : List Answer} {strategy flat : Strategy} {members : List Strategy}
  {decision : Decision} {failures : List (String × DecisionError)}

/-- One of the leaves gives the decision, and none before it gives any. -/
def FirstDecides (answers : List Answer) (leaves : List Strategy) (decision : Decision) : Prop :=
  ∃ before leaf after, leaves = before ++ leaf :: after ∧ leaf.decide answers = .ok decision ∧
    ∀ earlier ∈ before, ∃ e, earlier.decide answers = .error e

/-- One failure for each member, in order: its name and the error with which it fails. -/
def Failures (answers : List Answer) (members : List Strategy)
    (failures : List (String × DecisionError)) : Prop :=
  List.Forall₂ (fun member failure =>
    failure.1 = member.name ∧ member.decide answers = .error failure.2) members failures

/-- An aggregate, at the top or deeper, has taken in the members of an aggregate in their place. -/
inductive Flattened : Strategy → Strategy → Prop
  | here (before nested after : List Strategy) :
    Flattened (.aggregate (before ++ .aggregate nested :: after))
      (.aggregate (before ++ nested ++ after))
  | within (before after : List Strategy) {member flat : Strategy} (inner : Flattened member flat) :
    Flattened (.aggregate (before ++ member :: after)) (.aggregate (before ++ flat :: after))

/-! ## Decisions -/

theorem leavesOf_append (members more : List Strategy) :
    leavesOf (members ++ more) = leavesOf members ++ leavesOf more := by
  induction members with
  | nil => rfl
  | cons member rest ih => rw [List.cons_append, leavesOf, leavesOf, ih, List.append_assoc]

theorem Flattened.leaves_eq (h : Flattened strategy flat) : flat.leaves = strategy.leaves := by
  induction h with
  | here before nested after =>
    rw [leaves, leaves, leavesOf_append, leavesOf_append, leavesOf_append, leavesOf, leaves,
      List.append_assoc]
  | within before after inner ih =>
    rw [leaves, leaves, leavesOf_append, leavesOf_append, leavesOf, leavesOf, ih]

/-- **Taking in the members of an aggregate** changes no decision. -/
theorem Flattened.decision?_eq (h : Flattened strategy flat) (answers : List Answer) :
    flat.decision? answers = strategy.decision? answers := by
  cases hempty : answers.isEmpty with
  | true => rw [decision?_of_isEmpty hempty, decision?_of_isEmpty hempty]
  | false =>
    rw [Strategy.decision?_eq hempty, Strategy.decision?_eq hempty, h.leaves_eq]

/-- **The first leaf that decides** has decided. -/
theorem decide_eq_ok_iff (nonempty : answers ≠ []) :
    strategy.decide answers = .ok decision ↔ FirstDecides answers strategy.leaves decision := by
  have hempty : answers.isEmpty = false := by simpa using nonempty
  rw [← decision?_eq_some_iff, Strategy.decision?_eq hempty, List.findSome?_eq_some_iff]
  simp only [decision?_eq_some_iff, decision?_eq_none_iff, FirstDecides]

theorem decide_nil (strategy : Strategy) : strategy.decide [] = .error .noInputs := by
  cases strategy <;> rw [decide] <;> rfl

/-! ## Failures -/

/-- **Members that all fail** are listed, each once and in order. -/
theorem decideFirst_eq_error_iff :
    decideFirst answers members = .error failures ↔ Failures answers members failures := by
  induction members generalizing failures with
  | nil =>
    rw [Failures, List.forall₂_nil_left_iff, decideFirst, Except.error.injEq, eq_comm]
  | cons member rest ih =>
    rw [Failures, List.forall₂_cons_left_iff, decideFirst]
    cases hmember : decide answers member with
    | ok decision =>
      constructor
      · rintro ⟨⟩
      · rintro ⟨failure, more, ⟨-, ⟨⟩⟩, -⟩
    | error e =>
      cases hrest : decideFirst answers rest with
      | ok decision =>
        constructor
        · rintro ⟨⟩
        · rintro ⟨failure, more, -, hmore, -⟩
          rw [← Failures, ← ih, hrest] at hmore
          cases hmore
      | error others =>
        constructor
        · rintro ⟨⟩
          exact ⟨_, others, ⟨rfl, rfl⟩, ih.mp hrest, rfl⟩
        · rintro ⟨⟨name, e'⟩, more, ⟨rfl, ⟨⟩⟩, hmore, rfl⟩
          rw [← Failures, ← ih, hrest] at hmore
          cases hmore
          rfl

/-- What an aggregate tells when it fails. -/
theorem decide_aggregate_eq_error_iff (nonempty : answers ≠ []) {e : DecisionError} :
    (aggregate members).decide answers = .error e ↔
      ∃ failures, e = .aggregate failures ∧ Failures answers members failures ∧
        e.message = "encountered errors while deciding: " ++ String.intercalate "; "
          (failures.map fun failure => failure.1 ++ ": " ++ failure.2.message) := by
  rw [decide, if_neg (by simpa using nonempty)]
  cases hfirst : decideFirst answers members with
  | ok decision =>
    constructor
    · rintro ⟨⟩
    · rintro ⟨failures, -, hfailures, -⟩
      cases hfirst.symm.trans (decideFirst_eq_error_iff.mpr hfailures)
  | error failures =>
    constructor
    · rintro ⟨⟩
      exact ⟨failures, rfl, decideFirst_eq_error_iff.mp hfirst,
        DecisionError.message_aggregate failures⟩
    · rintro ⟨others, rfl, hothers, -⟩
      cases hfirst.symm.trans (decideFirst_eq_error_iff.mpr hothers)
      rfl

/-- **Strategies of any depth** decide as the first of their leaves that decides, so that an aggregate
can give way to its members in their place. An aggregate that fails lists each of its members once and
in order, by name and with its own error, in its error and in the text of it. Without answers
everything fails for want of them. -/
theorem decide_first_success (nonempty : answers ≠ []) (strategy : Strategy) :
    ((∃ decision, strategy.decide answers = .ok decision) ↔
        ∃ leaf ∈ strategy.leaves, ∃ decision, leaf.decide answers = .ok decision) ∧
      (∀ decision, strategy.decide answers = .ok decision ↔
        FirstDecides answers strategy.leaves decision) ∧
      (∀ flat, Flattened strategy flat → ∀ decision,
        flat.decide answers = .ok decision ↔ strategy.decide answers = .ok decision) ∧
      (∀ members e, (aggregate members).decide answers = .error e ↔
        ∃ failures, e = .aggregate failures ∧ Failures answers members failures ∧
          e.message = "encountered errors while deciding: " ++ String.intercalate "; "
            (failures.map fun failure => failure.1 ++ ": " ++ failure.2.message)) ∧
      strategy.decide [] = .error .noInputs := by
  have hempty : answers.isEmpty = false := by simpa using nonempty
  refine ⟨⟨?_, ?_⟩, fun _ => decide_eq_ok_iff nonempty, fun flat h decision => ?_,
    fun _ _ => decide_aggregate_eq_error_iff nonempty, decide_nil strategy⟩
  · rintro ⟨decision, h⟩
    obtain ⟨leaf, hleaf, hdecides⟩ := exists_leaf h
    exact ⟨leaf, hleaf, decision, hdecides⟩
  · rintro ⟨leaf, hleaf, decision, h⟩
    by_contra hnone
    have hfails : strategy.decision? answers = none := by
      rw [decision?_eq_none_iff]
      cases hdecide : strategy.decide answers with
      | ok decision => exact absurd ⟨decision, hdecide⟩ hnone
      | error e => exact ⟨e, rfl⟩
    rw [Strategy.decision?_eq hempty, List.findSome?_eq_none_iff] at hfails
    cases (hfails leaf hleaf).symm.trans (decision?_eq_some_iff.mpr h)
  · rw [← decision?_eq_some_iff, ← decision?_eq_some_iff, h.decision?_eq]

/-- The aggregate that is asked first tells of both its members; the trusted log then decides, also
where the first aggregate has given way to its members. -/
theorem decide_first_success_trusted_last :
    ∃ (answers : List Answer) (inner : List Strategy) (after : List Strategy),
      answers = [⟨"a", "1"⟩, ⟨"b", "2"⟩, ⟨"upstream", "3"⟩] ∧
      inner = [.percentage 60, .logName "c"] ∧
      after = [.aggregate [], .script fun _ => .error (.script .notTable), .logName "upstream"] ∧
      (aggregate (aggregate inner :: after)).decide answers = .ok ⟨"3", 100, ["upstream"]⟩ ∧
      (aggregate (inner ++ after)).decide answers = .ok ⟨"3", 100, ["upstream"]⟩ ∧
      (aggregate inner).decide answers =
        .error (.aggregate [("percentage", .belowMinimum 60), ("logname", .logNotFound "c")]) := by
  have hgroups : groups [⟨"a", "1"⟩, ⟨"b", "2"⟩, ⟨"upstream", "3"⟩] =
      [("1", ["a"]), ("2", ["b"]), ("3", ["upstream"])] := by decide
  have hshare : (percentage 60).decide [⟨"a", "1"⟩, ⟨"b", "2"⟩, ⟨"upstream", "3"⟩] =
      .error (.belowMinimum 60) := by
    simp [decide, decideByShare, hgroups, bestGroup, share]
  have hnested : (aggregate (aggregate [.percentage 60, .logName "c"] ::
      [.aggregate [], .script fun _ => .error (.script .notTable), .logName "upstream"])).decide
        [⟨"a", "1"⟩, ⟨"b", "2"⟩, ⟨"upstream", "3"⟩] = .ok ⟨"3", 100, ["upstream"]⟩ := by
    simp [decide, decideFirst, decideByShare, decideByName, hgroups, bestGroup, share]
  have nonempty : [⟨"a", "1"⟩, ⟨"b", "2"⟩, (⟨"upstream", "3"⟩ : Answer)] ≠ [] := by decide
  obtain ⟨-, -, hflat, hfails, -⟩ := decide_first_success nonempty
    (aggregate (aggregate [.percentage 60, .logName "c"] ::
      [.aggregate [], .script fun _ => .error (.script .notTable), .logName "upstream"]))
  refine ⟨_, _, _, rfl, rfl, rfl, hnested, (hflat _ (.here [] _ _) _).mpr hnested, ?_⟩
  rw [hfails]
  refine ⟨_, rfl, .cons ⟨rfl, hshare⟩ (.cons ⟨rfl, rfl⟩ .nil), DecisionError.message_aggregate _⟩

end Strategy

end TransparencyLog.Quorum
