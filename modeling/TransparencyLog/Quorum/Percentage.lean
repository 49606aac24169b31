import TransparencyLog.Quorum.Basic

/-!
# Quorum by share

Answers are grouped by output hash, in the order of the hashes. A group's share is its part of all
answers in percent, rounded down. The greatest share wins if it reaches the minimum; of equal
shares the lowest hash wins, so the order of the answers never matters. The search stops early at
a group that nothing can beat: the only one, or one with more than half.

* `Quorum.groups`, `Quorum.share`;
* `Quorum.decideByShare`.
-/

namespace TransparencyLog.Quorum

/-- The logs that reported each hash, in the order of the hashes. -/
abbrev Groups := List (String × List String)

/-- Adds one answer to its group. -/
def Groups.insert (answer : Answer) : Groups → Groups
  | [] => [(answer.outputHash, [answer.logName])]
  | (hash, names) :: rest =>
    match compare answer.outputHash hash with
    | .lt => (answer.outputHash, [answer.logName]) :: (hash, names) :: rest
    | .eq => (hash, names ++ [answer.logName]) :: rest
    | .gt => (hash, names) :: Groups.insert answer rest

def groups (answers : List Answer) : Groups := answers.foldl (fun g a => g.insert a) []

/-- A group's part of all answers in percent, rounded down. -/
def share (total count : Nat) : Nat := 100 * count / total

/-- The first group whose share nothing later beats, given the best one so far. -/
def bestGroup (minimum total : Nat) (alone : Bool) :
    Option (Nat × List String × String) → Groups → Option (Nat × List String × String)
  | best, [] => best
  | best, (hash, names) :: rest =>
    let percent := share total names.length
    if percent < minimum then bestGroup minimum total alone best rest
    else if alone || percent > 50 then some (percent, names, hash)
    else
      let better := match best with
        | none => true
        | some (previous, _, _) => percent > previous
      bestGroup minimum total alone (if better then some (percent, names, hash) else best) rest

def sortNames (names : List String) : List String := names.mergeSort (fun a b => decide (a ≤ b))

/-- Decides for the hash with the greatest share of at least `minimum` percent. -/
def decideByShare (minimum : Nat) (answers : List Answer) : Except DecisionError Decision :=
  if answers.isEmpty then .error .noInputs
  else
    let found := groups answers
    match bestGroup minimum answers.length (found.length == 1) none found with
    | none => .error (.belowMinimum minimum)
    | some (percent, names, hash) => .ok ⟨hash, percent, sortNames names⟩

end TransparencyLog.Quorum
