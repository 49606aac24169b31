import Mathlib.Data.List.Find
import TransparencyLog.Proofs.Quorum.Agreement
import TransparencyLog.Proofs.Quorum.Share

/-!
# Answers in another order

Logs answer in any order. A share counts the answers, and a trusted log has one answer as long as names
differ, so both leaves give the same in every order, and with them every strategy that is made of them.
The errors are the same too, and so is the choice of the next member to ask.

* `Quorum.Strategy.decideByName_perm`: the answer of a trusted log;
* **`Quorum.Strategy.decide_reordered`**: strategies without scripts, of any depth.
-/

namespace TransparencyLog.Quorum.Strategy

variable {strategy : Strategy} {answers other : List Answer}

/-- A log that answers once has the same answer in every order. -/
theorem decideByName_perm (different : (answers.map Answer.logName).Nodup)
    (h : answers.Perm other) (trusted : String) :
    decideByName trusted answers = decideByName trusted other := by
  have hfind : (answers.find? fun answer => answer.logName == trusted) =
      other.find? fun answer => answer.logName == trusted := by
    refine List.find?_eq_find?_of_perm h ?_
    rintro first ⟨hmem, hname⟩ second ⟨hmem', hname'⟩
    exact List.inj_on_of_nodup_map different hmem hmem'
      ((beq_iff_eq.mp hname).trans (beq_iff_eq.mp hname').symm)
  rw [decideByName, decideByName, h.isEmpty_eq, hfind]

/-- **The order of the answers does not matter** to a strategy without scripts: it gives the same
decision, or fails with the same error, which lists the same failures in the same order. -/
theorem decide_reordered (plain : strategy.IsPlain)
    (different : (answers.map Answer.logName).Nodup) (h : answers.Perm other) :
    strategy.decide other = strategy.decide answers := by
  refine (decide_congr h.isEmpty_eq strategy fun leaf hleaf => ?_).symm
  rcases plain leaf hleaf with ⟨trusted, rfl⟩ | ⟨minimum, rfl⟩
  · rw [decide, decide]
    exact decideByName_perm different h trusted
  · rw [decide, decide]
    exact (decideByShare_perm h minimum).symm

/-- Two answers in both orders: no share suffices, and the trusted log decides or is missed. -/
theorem decide_reordered_two : ∃ answers : List Answer,
    answers = [⟨"a", "1"⟩, ⟨"b", "2"⟩] ∧
    (aggregate [.percentage 60, .aggregate [.logName "b"]]).decide answers.reverse =
      .ok ⟨"2", 100, ["b"]⟩ ∧
    (aggregate [.percentage 60, .aggregate [.logName "c"]]).decide answers.reverse =
      .error (.aggregate [("percentage", .belowMinimum 60),
        ("aggregate", .aggregate [("logname", .logNotFound "c")])]) := by
  have plain : ∀ trusted, (aggregate [.percentage 60, .aggregate [.logName trusted]]).IsPlain := by
    intro trusted leaf hleaf
    rcases List.mem_cons.mp hleaf with rfl | hlast
    · exact Or.inr ⟨60, rfl⟩
    · exact Or.inl ⟨trusted, List.mem_singleton.mp hlast⟩
  have hreverse : [⟨"a", "1"⟩, ⟨"b", "2"⟩].Perm [⟨"a", "1"⟩, (⟨"b", "2"⟩ : Answer)].reverse :=
    (List.reverse_perm _).symm
  have hgroups : groups [⟨"a", "1"⟩, ⟨"b", "2"⟩] = [("1", ["a"]), ("2", ["b"])] := by decide
  refine ⟨_, rfl, ?_, ?_⟩
  · rw [decide_reordered (plain "b") (by decide) hreverse]
    simp [decide, decideFirst, decideByShare, decideByName, hgroups, bestGroup, share]
  · rw [decide_reordered (plain "c") (by decide) hreverse]
    simp [decide, decideFirst, decideByShare, decideByName, hgroups, bestGroup, share, name]

end TransparencyLog.Quorum.Strategy
