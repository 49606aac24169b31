import Mathlib.Data.List.Nodup
import TransparencyLog.Proofs.Quorum.Leaves
import TransparencyLog.Proofs.Quorum.Share
import TransparencyLog.Quorum.Correlation

/-!
# Who agrees with a decision

A correlation sets the answers that differ from the decision beside the logs that the decision names.
What the decision names depends on who made it. A decision by share names every log that agrees, so
then each answer is in exactly one of the two places. A decision by the name of a log names that log
alone: another log with the same hash is in neither.

* `Quorum.Strategy.IsPlain`: strategies without scripts;
* `Quorum.Splits`: each answer is named or differs, and nothing else is named;
* **`Quorum.correlate_names_agreeing`**: what is named and what differs, for every plain strategy;
* **`Quorum.correlate_leaves_out`**: a log that agrees with the trusted one is left out.
-/

namespace TransparencyLog.Quorum

/-- Made of trusted names and shares, alone or in aggregates of any depth. -/
def Strategy.IsPlain (strategy : Strategy) : Prop :=
  ∀ leaf ∈ strategy.leaves, (∃ trusted, leaf = .logName trusted) ∨ ∃ minimum, leaf = .percentage minimum

/-- Each answer is named exactly if it agrees and stands apart exactly if it differs, and no other log
is named. -/
structure Splits (responses : List Answer) (found : Correlation) : Prop where
  agreeing : ∀ answer ∈ responses, answer.logName ∈ found.decision.logNames ↔
    answer.outputHash = found.decision.outputHash
  differing : ∀ answer ∈ responses, answer ∈ found.mismatches ↔
    answer.outputHash ≠ found.decision.outputHash
  named : ∀ name ∈ found.decision.logNames, ∃ answer ∈ responses, answer.logName = name

section Correlate

variable {strategy : Strategy} {responses : List Answer} {misses : List String} {found : Correlation}

/-- A decision by name is what the trusted log answered, and names that log. -/
theorem Strategy.decideByName_cases {trusted : String} {answers : List Answer} {decision : Decision}
    (h : decideByName trusted answers = .ok decision) :
    ∃ answer ∈ answers, answer.logName = trusted ∧ decision = ⟨answer.outputHash, 100, [trusted]⟩ := by
  unfold decideByName at h
  split at h
  · cases h
  split at h
  case h_2 => cases h
  case h_1 answer hfind =>
    have hname : answer.logName = trusted := by simpa using List.find?_some hfind
    refine ⟨answer, List.mem_of_find?_eq_some hfind, hname, ?_⟩
    rw [← Except.ok.inj h, hname]

theorem correlate_eq_ok_iff : correlate strategy responses misses = .ok found ↔
    strategy.decide responses = .ok found.decision ∧ found.misses = misses ∧
      found.mismatches = responses.filter fun r => r.outputHash != found.decision.outputHash := by
  unfold correlate
  cases strategy.decide responses with
  | error e =>
    constructor
    · rintro ⟨⟩
    · rintro ⟨⟨⟩, -⟩
  | ok decision =>
    constructor
    · rintro ⟨⟩
      exact ⟨rfl, rfl, rfl⟩
    · obtain ⟨decision', mismatches, misses'⟩ := found
      rintro ⟨⟨⟩, rfl, hmismatches⟩
      simp only at hmismatches ⊢
      rw [hmismatches]

theorem correlate_eq_error_iff {failure : NoDecision} :
    correlate strategy responses misses = .error failure ↔
      strategy.decide responses = .error failure.cause ∧ failure.responses = responses ∧
        failure.misses = misses := by
  unfold correlate
  cases strategy.decide responses with
  | error e =>
    constructor
    · rintro ⟨⟩
      exact ⟨rfl, rfl, rfl⟩
    · obtain ⟨cause, responses', misses'⟩ := failure
      rintro ⟨⟨⟩, rfl, rfl⟩
      rfl
  | ok decision =>
    constructor
    · rintro ⟨⟩
    · rintro ⟨⟨⟩, -⟩

theorem mem_mismatches (h : correlate strategy responses misses = .ok found) {answer : Answer} :
    answer ∈ found.mismatches ↔
      answer ∈ responses ∧ answer.outputHash ≠ found.decision.outputHash := by
  rw [(correlate_eq_ok_iff.mp h).2.2, List.mem_filter, bne_iff_ne]

/-- **The logs that are named** by the leaf that has decided: all that agree, or the trusted one. -/
theorem named_cases (plain : strategy.IsPlain)
    (h : correlate strategy responses misses = .ok found) :
    (∃ minimum, .percentage minimum ∈ strategy.leaves ∧
      ∀ name, name ∈ found.decision.logNames ↔ ∃ answer ∈ responses, answer.logName = name ∧
        answer.outputHash = found.decision.outputHash) ∨
    ∃ trusted, .logName trusted ∈ strategy.leaves ∧ found.decision.logNames = [trusted] ∧
      ∃ answer ∈ responses, answer.logName = trusted ∧
        answer.outputHash = found.decision.outputHash := by
  obtain ⟨leaf, hleaf, hdecides⟩ := Strategy.exists_leaf (correlate_eq_ok_iff.mp h).1
  rcases plain leaf hleaf with ⟨trusted, rfl⟩ | ⟨minimum, rfl⟩
  · obtain ⟨answer, hmem, hname, hdecision⟩ := Strategy.decideByName_cases hdecides
    rw [hdecision]
    exact Or.inr ⟨trusted, hleaf, rfl, answer, hmem, hname, rfl⟩
  · refine Or.inl ⟨minimum, hleaf, fun name => ?_⟩
    rw [(decideByShare_eq_ok_iff.mp hdecides).names.mem_iff, mem_reporters]

/-- **What a correlation tells about the answers**, for every strategy of names and shares. The answers
that stand apart are those that differ. The logs that are named have answered and agree; if a share of
the answers has decided, they are all that agree, and each answer is in one of the two places. If the
name of a log has decided, that log alone is named. -/
theorem correlate_names_agreeing (plain : strategy.IsPlain)
    (different : (responses.map Answer.logName).Nodup)
    (h : correlate strategy responses misses = .ok found) :
    (∀ answer, answer ∈ found.mismatches ↔
        answer ∈ responses ∧ answer.outputHash ≠ found.decision.outputHash) ∧
      (∀ answer ∈ responses, answer.logName ∈ found.decision.logNames →
        answer.outputHash = found.decision.outputHash) ∧
      (∀ name ∈ found.decision.logNames, ∃ answer ∈ responses, answer.logName = name) ∧
      (Splits responses found ∨ ∃ trusted, .logName trusted ∈ strategy.leaves ∧
        found.decision.logNames = [trusted]) := by
  have hdiffer : ∀ answer, answer ∈ found.mismatches ↔
      answer ∈ responses ∧ answer.outputHash ≠ found.decision.outputHash :=
    fun _ => mem_mismatches h
  have hsame := List.inj_on_of_nodup_map different
  have hnamed : ∀ name ∈ found.decision.logNames, ∃ answer ∈ responses, answer.logName = name ∧
      answer.outputHash = found.decision.outputHash := by
    intro name hname
    rcases named_cases plain h with ⟨-, -, hall⟩ | ⟨trusted, -, hone, htrusted⟩
    · exact (hall name).mp hname
    · rw [hone] at hname
      rw [List.mem_singleton.mp hname]
      exact htrusted
  have hagree : ∀ answer ∈ responses, answer.logName ∈ found.decision.logNames →
      answer.outputHash = found.decision.outputHash := by
    -- Names are different, so the answer of a log that is named is the one it is named for.
    intro answer hmem hname
    obtain ⟨other, hother, heq, hhash⟩ := hnamed _ hname
    rw [← hsame hother hmem heq]
    exact hhash
  have hanswered : ∀ name ∈ found.decision.logNames, ∃ answer ∈ responses, answer.logName = name :=
    fun name hname => (hnamed name hname).imp fun _ h => ⟨h.1, h.2.1⟩
  refine ⟨hdiffer, hagree, hanswered, ?_⟩
  rcases named_cases plain h with ⟨-, -, hall⟩ | ⟨trusted, htrusted, hone, -⟩
  · refine Or.inl ⟨fun answer hmem => ⟨hagree answer hmem, fun hhash => ?_⟩, ?_, hanswered⟩
    · exact (hall _).mpr ⟨answer, hmem, rfl, hhash⟩
    · intro answer hmem
      rw [hdiffer]
      exact and_iff_right hmem
  · exact Or.inr ⟨trusted, htrusted, hone⟩

end Correlate

/-- Three of four logs agree, and their share decides before the trusted name is asked for. -/
theorem correlate_names_agreeing_three_of_four : ∃ (responses : List Answer) (found : Correlation),
    responses = [⟨"a", "A"⟩, ⟨"b", "A"⟩, ⟨"c", "A"⟩, ⟨"d", "B"⟩] ∧
    correlate (.aggregate [.percentage 60, .logName "d"]) responses [] = .ok found ∧
    (∀ answer, answer ∈ found.mismatches ↔
      answer ∈ responses ∧ answer.outputHash ≠ found.decision.outputHash) ∧
    Splits responses found := by
  have plain : (Strategy.aggregate [.percentage 60, .logName "d"]).IsPlain := by
    intro leaf hleaf
    rcases List.mem_cons.mp hleaf with rfl | hlast
    · exact Or.inr ⟨60, rfl⟩
    · exact Or.inl ⟨"d", List.mem_singleton.mp hlast⟩
  have h : correlate (.aggregate [.percentage 60, .logName "d"])
      [⟨"a", "A"⟩, ⟨"b", "A"⟩, ⟨"c", "A"⟩, ⟨"d", "B"⟩] [] =
        .ok ⟨⟨"A", 75, ["a", "b", "c"]⟩, [⟨"d", "B"⟩], []⟩ := by
    have hgroups : groups [⟨"a", "A"⟩, ⟨"b", "A"⟩, ⟨"c", "A"⟩, ⟨"d", "B"⟩] =
        [("A", ["a", "b", "c"]), ("B", ["d"])] := by decide
    have hsort : sortNames ["a", "b", "c"] = ["a", "b", "c"] :=
      List.mergeSort_of_pairwise (by decide)
    have hshare : decideByShare 60 [⟨"a", "A"⟩, ⟨"b", "A"⟩, ⟨"c", "A"⟩, ⟨"d", "B"⟩] =
        .ok ⟨"A", 75, ["a", "b", "c"]⟩ := by
      simp [decideByShare, hgroups, bestGroup, share, hsort]
    simp [correlate, Strategy.decide, Strategy.decideFirst, hshare]
  obtain ⟨hdiffer, -, -, hsplits | ⟨trusted, -, hone⟩⟩ :=
    correlate_names_agreeing plain (by decide) h
  · exact ⟨_, _, rfl, h, hdiffer, hsplits⟩
  · cases hone

/-- **A log that agrees with the trusted one is left out**: it is not named, and it does not stand apart
either. -/
theorem correlate_leaves_out : (Strategy.logName "a").IsPlain ∧
    ([⟨"a", "1"⟩, ⟨"b", "1"⟩].map Answer.logName).Nodup ∧
    correlate (.logName "a") [⟨"a", "1"⟩, ⟨"b", "1"⟩] [] = .ok ⟨⟨"1", 100, ["a"]⟩, [], []⟩ ∧
    ¬ Splits [⟨"a", "1"⟩, ⟨"b", "1"⟩] ⟨⟨"1", 100, ["a"]⟩, [], []⟩ := by
  refine ⟨fun leaf hleaf => Or.inl ⟨"a", List.mem_singleton.mp hleaf⟩, by decide, rfl, fun h => ?_⟩
  have hnamed := (h.agreeing ⟨"b", "1"⟩ (by decide)).mpr rfl
  revert hnamed
  decide

end TransparencyLog.Quorum
