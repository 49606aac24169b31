import TransparencyLog.Quorum.Strategy

/-!
# The leaves of a strategy

A strategy is a tree: aggregates have members, and everything else is a leaf. Members are tried in order,
so the leaves are tried in order too, and the first that decides has decided.

* `Quorum.Strategy.leaves`: the leaves in order;
* **`Quorum.Strategy.decision?_eq`**: a strategy decides as the first of its leaves that decides;
* `Quorum.Strategy.exists_leaf`: the leaf that has decided;
* `Quorum.Strategy.decide_congr`: answers on which the leaves agree.
-/

namespace TransparencyLog.Quorum.Strategy

mutual

/-- The parts of a strategy that are no aggregates, in the order in which they are tried. -/
def leaves : Strategy → List Strategy
  | .aggregate members => leavesOf members
  | leaf => [leaf]

/-- The leaves of some members. -/
def leavesOf : List Strategy → List Strategy
  | [] => []
  | member :: rest => leaves member ++ leavesOf rest

end

/-- The decision of a strategy, if it decides. -/
def decision? (answers : List Answer) (strategy : Strategy) : Option Decision :=
  (strategy.decide answers).toOption

section Leaves

variable {answers : List Answer}

/-- Without answers nothing decides. -/
theorem decision?_of_isEmpty (h : answers.isEmpty = true) (strategy : Strategy) :
    strategy.decision? answers = none := by
  cases strategy <;> simp [decision?, decide, decideByName, decideByShare, h, Except.toOption]

theorem decision?_aggregate (h : answers.isEmpty = false) (members : List Strategy) :
    (aggregate members).decision? answers = (decideFirst answers members).toOption := by
  rw [decision?, decide, h]
  cases decideFirst answers members <;> rfl

/-- The first member that decides has decided. -/
theorem toOption_decideFirst (members : List Strategy) : (decideFirst answers members).toOption =
    members.findSome? fun member => member.decision? answers := by
  induction members with
  | nil => rfl
  | cons member rest ih =>
    rw [decideFirst, List.findSome?_cons, decision?, ← ih]
    cases decide answers member with
    | ok decision => rfl
    | error e => cases decideFirst answers rest <;> rfl

mutual

/-- **A strategy decides** as the first of its leaves that decides. -/
theorem decision?_eq (h : answers.isEmpty = false) : (strategy : Strategy) →
    strategy.decision? answers = strategy.leaves.findSome? fun leaf => leaf.decision? answers
  | .logName _ => by simp only [leaves, List.findSome?_singleton]
  | .percentage _ => by simp only [leaves, List.findSome?_singleton]
  | .script _ => by simp only [leaves, List.findSome?_singleton]
  | .aggregate members => by
    rw [decision?_aggregate h, toOption_decideFirst, leaves]
    exact findSome?_eq h members

theorem findSome?_eq (h : answers.isEmpty = false) : (members : List Strategy) →
    (members.findSome? fun member => member.decision? answers) =
      (leavesOf members).findSome? fun leaf => leaf.decision? answers
  | [] => rfl
  | member :: rest => by
    rw [List.findSome?_cons, leavesOf, List.findSome?_append, decision?_eq h member,
      findSome?_eq h rest]
    cases member.leaves.findSome? fun leaf => leaf.decision? answers <;> rfl

end

theorem decision?_eq_some_iff {strategy : Strategy} {decision : Decision} :
    strategy.decision? answers = some decision ↔ strategy.decide answers = .ok decision := by
  rw [decision?]
  cases strategy.decide answers with
  | ok found => rw [Except.toOption, Option.some.injEq, Except.ok.injEq]
  | error e =>
    constructor
    · rintro ⟨⟩
    · rintro ⟨⟩

theorem decision?_eq_none_iff {strategy : Strategy} :
    strategy.decision? answers = none ↔ ∃ e, strategy.decide answers = .error e := by
  rw [decision?]
  cases strategy.decide answers with
  | ok decision =>
    constructor
    · rintro ⟨⟩
    · rintro ⟨e, ⟨⟩⟩
  | error e => exact ⟨fun _ => ⟨e, rfl⟩, fun _ => rfl⟩

/-- Whatever is decided, a leaf has decided it. -/
theorem exists_leaf {strategy : Strategy} {decision : Decision}
    (h : strategy.decide answers = .ok decision) :
    ∃ leaf ∈ strategy.leaves, leaf.decide answers = .ok decision := by
  have hsome := decision?_eq_some_iff.mpr h
  cases hempty : answers.isEmpty with
  | true => cases (decision?_of_isEmpty hempty strategy).symm.trans hsome
  | false =>
    rw [decision?_eq hempty] at hsome
    obtain ⟨leaf, hleaf, hdecides⟩ := List.exists_of_findSome?_eq_some hsome
    exact ⟨leaf, hleaf, decision?_eq_some_iff.mp hdecides⟩

mutual

/-- **Answers on which the leaves agree** are answers on which the strategy does, in its decision or in
its error. -/
theorem decide_congr {other : List Answer} (hempty : answers.isEmpty = other.isEmpty) :
    (strategy : Strategy) →
      (∀ leaf ∈ strategy.leaves, leaf.decide answers = leaf.decide other) →
        strategy.decide answers = strategy.decide other
  | .logName _, h => h _ (by simp [leaves])
  | .percentage _, h => h _ (by simp [leaves])
  | .script _, h => h _ (by simp [leaves])
  | .aggregate members, h => by
    rw [decide, decide, hempty, decideFirst_congr hempty members h]

theorem decideFirst_congr {other : List Answer} (hempty : answers.isEmpty = other.isEmpty) :
    (members : List Strategy) →
      (∀ leaf ∈ leavesOf members, leaf.decide answers = leaf.decide other) →
        decideFirst answers members = decideFirst other members
  | [], _ => rfl
  | member :: rest, h => by
    have hmember := decide_congr hempty member fun leaf hleaf =>
      h leaf (List.mem_append_left _ hleaf)
    have hrest := decideFirst_congr hempty rest fun leaf hleaf =>
      h leaf (List.mem_append_right _ hleaf)
    rw [decideFirst, decideFirst, hmember, hrest]

end

end Leaves

end TransparencyLog.Quorum.Strategy
