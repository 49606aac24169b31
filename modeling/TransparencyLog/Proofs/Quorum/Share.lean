import Mathlib.Data.List.Induction
import TransparencyLog.Proofs.Quorum.Groups
import TransparencyLog.Proofs.Text

/-!
# The greatest share wins

A decision by share is for the hash that the greatest part of the answers report, in whole percent, and
for the lowest of several such hashes. This fixes the decision: the order of the answers and the
short-cuts of the search change nothing, and a lower minimum only admits more.

* `Quorum.percent`: the part of the answers that report a hash;
* `Quorum.Wins`: the decision that the answers call for;
* `Quorum.search`, `Quorum.decideInFull`: the search without short-cuts;
* **`Quorum.bestGroup_eq_search`**: nothing beats a group that is alone or has a majority;
* **`Quorum.decideByShare_eq_ok_iff`**, `Quorum.decideByShare_perm`: what is decided is what the answers
  call for, in any order;
* **`Quorum.decideByShare_greatest`**: all of this.
-/

namespace TransparencyLog.Quorum

variable {minimum total : Nat} {answers other : List Answer} {decision decision' : Decision}

/-! ## Shares -/

/-- The part of the answers that report a hash, in percent and rounded down. -/
def percent (answers : List Answer) (hash : String) : Nat :=
  100 * (reporters answers hash).length / answers.length

theorem reporters_perm (h : answers.Perm other) (hash : String) :
    (reporters answers hash).Perm (reporters other hash) :=
  (h.filter _).map _

theorem percent_perm (h : answers.Perm other) (hash : String) :
    percent answers hash = percent other hash := by
  rw [percent, (reporters_perm h hash).length_eq, h.length_eq, percent]

theorem reporters_eq_nil {hash : String} (h : ∀ answer ∈ answers, answer.outputHash ≠ hash) :
    reporters answers hash = [] := by
  rw [List.eq_nil_iff_forall_not_mem]
  intro name hname
  obtain ⟨answer, hmem, -, hhash⟩ := mem_reporters.mp hname
  exact h answer hmem hhash

theorem length_reporters_le (answers : List Answer) (hash : String) :
    (reporters answers hash).length ≤ answers.length := by
  rw [reporters, List.length_map]
  exact List.length_filter_le _ _

/-- An answer reports one hash, so the reporters of two hashes are apart. -/
theorem length_reporters_add_le {hash hash' : String} (h : hash ≠ hash') :
    (reporters answers hash).length + (reporters answers hash').length ≤ answers.length := by
  unfold reporters
  induction answers with
  | nil => exact Nat.le_refl 0
  | cons answer rest ih =>
    simp only [List.length_map, List.filter_cons, beq_iff_eq, List.length_cons] at ih ⊢
    by_cases hfirst : answer.outputHash = hash
    · have hsecond : answer.outputHash ≠ hash' := hfirst ▸ h
      rw [if_pos hfirst, if_neg hsecond, List.length_cons]
      omega
    by_cases hsecond : answer.outputHash = hash'
    · rw [if_neg hfirst, if_pos hsecond, List.length_cons]
      omega
    · rw [if_neg hfirst, if_neg hsecond]
      omega

/-- The shares of groups that are apart add up to no more than all. -/
theorem share_add_le {count count' : Nat} (h : count + count' ≤ total) :
    share total count + share total count' ≤ 100 := by
  calc share total count + share total count'
      ≤ (100 * count + 100 * count') / total := Nat.div_add_div_le_add_div
    _ ≤ 100 := Nat.div_le_of_le_mul (by rw [← Nat.mul_add, Nat.mul_comm]; exact Nat.mul_le_mul_right _ h)

/-- Among at most a hundred answers, one more makes a greater share. -/
theorem share_lt_share {count count' : Nat} (few : total ≤ 100) (hle : count' ≤ total)
    (hlt : count < count') : share total count < share total count' := by
  have htotal : 0 < total := by omega
  calc share total count < (100 * count + total) / total := by
        rw [Nat.add_div_right _ htotal]
        exact Nat.lt_succ_self _
    _ ≤ share total count' := Nat.div_le_div_right (by omega)

/-! ## What a decision is for -/

/-- The decision that the answers call for: the hash of the greatest share, which reaches the minimum;
of several the lowest, byte by byte; and the logs that report it, in order. -/
structure Wins (minimum : Nat) (answers : List Answer) (decision : Decision) : Prop where
  reported : ∃ answer ∈ answers, answer.outputHash = decision.outputHash
  confidence_eq : decision.confidence = percent answers decision.outputHash
  reaches : minimum ≤ decision.confidence
  greatest : ∀ hash, percent answers hash ≤ decision.confidence
  lowest : ∀ answer ∈ answers, percent answers answer.outputHash = decision.confidence →
    answer.outputHash ≠ decision.outputHash → Utf8.Before decision.outputHash answer.outputHash
  sorted : decision.logNames.Pairwise fun name later => ¬ Utf8.Before later name
  names : decision.logNames.Perm (reporters answers decision.outputHash)

namespace Wins

/-- The answers call for one decision. -/
theorem unique (h : Wins minimum answers decision) (h' : Wins minimum answers decision') :
    decision = decision' := by
  have hconfidence : decision.confidence = decision'.confidence := by
    refine Nat.le_antisymm ?_ ?_
    · rw [h.confidence_eq]
      exact h'.greatest _
    · rw [h'.confidence_eq]
      exact h.greatest _
  have hhash : decision.outputHash = decision'.outputHash := by
    by_contra hne
    obtain ⟨answer, hmem, heq⟩ := h.reported
    obtain ⟨answer', hmem', heq'⟩ := h'.reported
    have hbefore := h.lowest answer' hmem'
    have hbefore' := h'.lowest answer hmem
    rw [heq', ← h'.confidence_eq] at hbefore
    rw [heq, ← h.confidence_eq] at hbefore'
    exact (hbefore hconfidence.symm (Ne.symm hne)).asymm (hbefore' hconfidence hne)
  have hnames : decision.logNames = decision'.logNames := by
    refine List.Perm.eq_of_pairwise (fun name later _ _ hle hge => ?_) h.sorted h'.sorted ?_
    · rw [Utf8.before_iff_lt, String.not_lt] at hle hge
      exact String.le_antisymm hle hge
    · exact h.names.trans ((List.Perm.of_eq (by rw [hhash])).trans h'.names.symm)
  cases decision
  cases decision'
  rw [Decision.mk.injEq]
  exact ⟨hhash, hconfidence, hnames⟩

/-- The order of the answers does not matter. -/
theorem perm (h : Wins minimum answers decision) (hperm : answers.Perm other) :
    Wins minimum other decision where
  reported := by
    obtain ⟨answer, hmem, heq⟩ := h.reported
    exact ⟨answer, hperm.mem_iff.mp hmem, heq⟩
  confidence_eq := by
    rw [← percent_perm hperm]
    exact h.confidence_eq
  reaches := h.reaches
  greatest hash := by
    rw [← percent_perm hperm]
    exact h.greatest hash
  lowest answer hmem := by
    rw [← percent_perm hperm]
    exact h.lowest answer (hperm.mem_iff.mpr hmem)
  sorted := h.sorted
  names := h.names.trans (reporters_perm hperm _)

/-- What reaches a minimum reaches every lower one. -/
theorem mono (h : Wins minimum answers decision) {lower : Nat} (hle : lower ≤ minimum) :
    Wins lower answers decision :=
  { h with reaches := Nat.le_trans hle h.reaches }

/-- Where answers call for a decision, a share reaches the minimum. -/
theorem minimum_le (h : Wins minimum answers decision) :
    minimum ≤ percent answers decision.outputHash :=
  h.reaches.trans h.confidence_eq.le

/-- Among at most a hundred answers no hash has more reporters than the one of the greatest share. -/
theorem length_le (h : Wins minimum answers decision) (few : answers.length ≤ 100) (hash : String) :
    (reporters answers hash).length ≤ (reporters answers decision.outputHash).length := by
  by_contra hmore
  have hgreatest := h.greatest hash
  rw [h.confidence_eq] at hgreatest
  have hlt := share_lt_share few (length_reporters_le answers hash) (Nat.not_le.mp hmore)
  exact absurd hlt (Nat.not_lt.mpr hgreatest)

end Wins

/-! ## The search without short-cuts -/

/-- The best group so far, or the next one if it reaches the minimum and has a greater share. -/
def better (minimum total : Nat) (best : Option (Nat × List String × String))
    (group : String × List String) : Option (Nat × List String × String) :=
  let percent := share total group.2.length
  if percent < minimum then best
  else
    match best with
    | none => some (percent, group.2, group.1)
    | some (previous, names, hash) =>
      if percent > previous then some (percent, group.2, group.1) else some (previous, names, hash)

/-- The best of all groups, each of them looked at. -/
def search (minimum total : Nat) (best : Option (Nat × List String × String)) (g : Groups) :
    Option (Nat × List String × String) :=
  g.foldl (better minimum total) best

/-- Decides as `decideByShare` does, but looks at every group. -/
def decideInFull (minimum : Nat) (answers : List Answer) : Except DecisionError Decision :=
  if answers.isEmpty then .error .noInputs
  else
    match search minimum answers.length none (groups answers) with
    | none => .error (.belowMinimum minimum)
    | some (percent, names, hash) => .ok ⟨hash, percent, sortNames names⟩

/-- What is found among groups: the first of those with the greatest share, if that reaches the
minimum. -/
def Found (minimum total : Nat) (g : Groups) : Option (Nat × List String × String) → Prop
  | none => ∀ x ∈ g, share total x.2.length < minimum
  | some (percent, names, hash) => percent = share total names.length ∧ minimum ≤ percent ∧
      ∃ before after, g = before ++ (hash, names) :: after ∧
        (∀ x ∈ before, share total x.2.length < percent) ∧
        ∀ x ∈ after, share total x.2.length ≤ percent

section Found

variable {g : Groups} {group : String × List String} {percent : Nat} {names : List String}
  {hash : String}

theorem Found.share_le (h : Found minimum total g (some (percent, names, hash))) :
    ∀ x ∈ g, share total x.2.length ≤ percent := by
  obtain ⟨hshare, -, before, after, rfl, hbefore, hafter⟩ := h
  intro x hx
  rcases List.mem_append.mp hx with hmem | hmem
  · exact (hbefore x hmem).le
  rcases List.mem_cons.mp hmem with rfl | hmem
  · exact hshare.ge
  · exact hafter x hmem

/-- One more group of no greater share. -/
theorem Found.concat (h : Found minimum total g (some (percent, names, hash)))
    (hle : share total group.2.length ≤ percent) :
    Found minimum total (g ++ [group]) (some (percent, names, hash)) := by
  obtain ⟨hshare, hreaches, before, after, rfl, hbefore, hafter⟩ := h
  refine ⟨hshare, hreaches, before, after ++ [group], by simp, hbefore, fun x hx => ?_⟩
  rcases List.mem_append.mp hx with hmem | hlast
  · exact hafter x hmem
  · rw [List.mem_singleton.mp hlast]
    exact hle

/-- One more group, of a greater share than all before. -/
theorem found_last (hreaches : minimum ≤ share total group.2.length)
    (h : ∀ x ∈ g, share total x.2.length < share total group.2.length) :
    Found minimum total (g ++ [group])
      (some (share total group.2.length, group.2, group.1)) :=
  ⟨rfl, hreaches, g, [], rfl, h, fun _ hx => absurd hx List.not_mem_nil⟩

theorem Found.step {best : Option (Nat × List String × String)}
    (h : Found minimum total g best) (group : String × List String) :
    Found minimum total (g ++ [group]) (better minimum total best group) := by
  unfold better
  simp only
  split
  case isTrue hbelow =>
    cases best with
    | none =>
      intro x hx
      rcases List.mem_append.mp hx with hmem | hlast
      · exact h x hmem
      · rw [List.mem_singleton.mp hlast]
        exact hbelow
    | some best => exact h.concat (Nat.lt_of_lt_of_le hbelow h.2.1).le
  case isFalse hreached =>
    have hreaches := Nat.not_lt.mp hreached
    cases best with
    | none => exact found_last hreaches fun x hx => Nat.lt_of_lt_of_le (h x hx) hreaches
    | some best =>
      simp only
      split
      case isTrue hgreater =>
        exact found_last hreaches fun x hx => Nat.lt_of_le_of_lt (h.share_le x hx) hgreater
      case isFalse hnot => exact h.concat (Nat.not_lt.mp hnot)

/-- **The search** finds the first group of the greatest share. -/
theorem found_search (minimum total : Nat) (g : Groups) :
    Found minimum total g (search minimum total none g) := by
  induction g using List.reverseRecOn with
  | nil => exact fun x hx => absurd hx List.not_mem_nil
  | append_singleton g group ih =>
    rw [search, List.foldl_append, List.foldl_cons, List.foldl_nil]
    exact ih.step group

end Found

/-! ## Short-cuts -/

section ShortCuts

variable {g : Groups} {best : Option (Nat × List String × String)} {alone : Bool}

/-- The search stops at a group that is alone or has a majority; else it goes on as in full. -/
theorem bestGroup_cons (x : String × List String) (g : Groups) :
    bestGroup minimum total alone best (x :: g) =
      if minimum ≤ share total x.2.length ∧ (alone = true ∨ 50 < share total x.2.length) then
        some (share total x.2.length, x.2, x.1)
      else bestGroup minimum total alone (better minimum total best x) g := by
  obtain ⟨hash, names⟩ := x
  unfold better
  simp only [bestGroup, Bool.or_eq_true, decide_eq_true_eq]
  by_cases hbelow : share total names.length < minimum
  · rw [if_pos hbelow, if_pos hbelow, if_neg fun h => absurd hbelow (Nat.not_lt.mpr h.1)]
  by_cases hstop : alone = true ∨ 50 < share total names.length
  · rw [if_neg hbelow, if_pos hstop, if_pos ⟨Nat.not_lt.mp hbelow, hstop⟩]
  · have hgoes : ¬ (minimum ≤ share total names.length ∧
        (alone = true ∨ 50 < share total names.length)) := fun h => hstop h.2
    rw [if_neg hbelow, if_neg hstop, if_neg hgoes, if_neg hbelow]
    cases best with
    | none => rfl
    | some best => simp only [decide_eq_true_eq]

/-- What no later group beats stays the best. -/
theorem search_of_le {percent : Nat} {names : List String} {hash : String}
    (h : ∀ x ∈ g, share total x.2.length ≤ percent) :
    search minimum total (some (percent, names, hash)) g = some (percent, names, hash) := by
  induction g with
  | nil => rfl
  | cons x g ih =>
    have hkeep : better minimum total (some (percent, names, hash)) x =
        some (percent, names, hash) := by
      rw [better]
      split
      · rfl
      · exact if_neg (Nat.not_lt.mpr (h x List.mem_cons_self))
    rw [search, List.foldl_cons, hkeep]
    exact ih fun y hy => h y (List.mem_cons_of_mem _ hy)

/-- A group of a greater share than the best before. -/
theorem better_of_lt {x : String × List String} (hreaches : minimum ≤ share total x.2.length)
    (h : ∀ previous ∈ best, previous.1 < share total x.2.length) :
    better minimum total best x = some (share total x.2.length, x.2, x.1) := by
  unfold better
  simp only [if_neg (Nat.not_lt.mpr hreaches)]
  cases best with
  | none => rfl
  | some previous => exact if_pos (h previous rfl)

theorem better_cases (minimum total : Nat) (best : Option (Nat × List String × String))
    (x : String × List String) : better minimum total best x = best ∨
      minimum ≤ share total x.2.length ∧
        better minimum total best x = some (share total x.2.length, x.2, x.1) := by
  unfold better
  simp only
  split
  case isTrue hbelow => exact Or.inl rfl
  case isFalse hreached =>
    cases best with
    | none => exact Or.inr ⟨Nat.not_lt.mp hreached, rfl⟩
    | some previous =>
      simp only
      split
      · exact Or.inr ⟨Nat.not_lt.mp hreached, rfl⟩
      · exact Or.inl rfl

/-- **Short-cuts change nothing.** A group that is alone has no other to beat, and of a majority the
others have less than half. -/
theorem bestGroup_eq_search (only : alone = true → best = none ∧ g.length ≤ 1)
    (first : ∀ previous ∈ best, ∀ x ∈ g, previous.1 + share total x.2.length ≤ 100)
    (apart : g.Pairwise fun x y => share total x.2.length + share total y.2.length ≤ 100) :
    bestGroup minimum total alone best g = search minimum total best g := by
  induction g generalizing best with
  | nil => rfl
  | cons x g ih =>
    obtain ⟨hothers, hrest⟩ := List.pairwise_cons.mp apart
    rw [bestGroup_cons, search, List.foldl_cons]
    split
    case isTrue hstop =>
      obtain ⟨hreaches, halone | hmajority⟩ := hstop
      · obtain ⟨rfl, hlength⟩ := only halone
        rw [List.length_cons] at hlength
        obtain rfl := List.length_eq_zero_iff.mp (by omega : g.length = 0)
        exact (better_of_lt hreaches (by simp)).symm
      · have hgreater : ∀ previous ∈ best, previous.1 < share total x.2.length := by
          intro previous hprevious
          have hsum := first previous hprevious x List.mem_cons_self
          omega
        rw [better_of_lt hreaches hgreater]
        refine (search_of_le fun y hy => ?_).symm
        have hsum := hothers y hy
        omega
    case isFalse hgoes =>
      refine ih (fun halone => ?_) (fun previous hprevious y hy => ?_) hrest
      · obtain ⟨hnone, hlength⟩ := only halone
        rcases better_cases minimum total best x with hsame | ⟨hreaches, -⟩
        · exact ⟨hsame.trans hnone, Nat.le_of_succ_le hlength⟩
        · exact absurd ⟨hreaches, Or.inl halone⟩ hgoes
      · rcases better_cases minimum total best x with hsame | ⟨-, hnew⟩
        · exact first previous (hsame ▸ hprevious) y (List.mem_cons_of_mem _ hy)
        · rw [hnew] at hprevious
          cases hprevious
          exact hothers y hy

end ShortCuts

/-! ## The groups of all answers -/

section Decide

variable {x : String × List String}

theorem share_of_mem_groups (h : x ∈ groups answers) :
    share answers.length x.2.length = percent answers x.1 := by
  have hnames : x.2 = reporters answers x.1 := names_of_mem_groups h
  rw [hnames, share, percent]

/-- A group has answers. -/
theorem exists_answer_of_mem_groups (h : x ∈ groups answers) :
    ∃ answer ∈ answers, answer.outputHash = x.1 := by
  induction answers using List.reverseRecOn generalizing x with
  | nil => cases h
  | append_singleton answers answer ih =>
    rw [groups_concat] at h
    rcases Groups.mem_insert h with hhash | ⟨y, hy, hhash⟩
    · exact ⟨answer, List.mem_append_right _ List.mem_cons_self, hhash.symm⟩
    · obtain ⟨earlier, hmem, heq⟩ := ih hy
      exact ⟨earlier, List.mem_append_left _ hmem, heq.trans hhash⟩

/-- An answer has a group. -/
theorem exists_group {answer : Answer} (h : answer ∈ answers) :
    ∃ names, (answer.outputHash, names) ∈ groups answers := by
  have hname : answer.logName ∈ reporters answers answer.outputHash :=
    mem_reporters.mpr ⟨answer, h, rfl, rfl⟩
  rw [← lookup_groups] at hname
  cases hlookup : (groups answers).lookup answer.outputHash with
  | none =>
    rw [hlookup] at hname
    cases hname
  | some names =>
    obtain ⟨before, after, hgroups, -⟩ := List.lookup_eq_some_iff.mp hlookup
    exact ⟨names, hgroups ▸ List.mem_append_right _ List.mem_cons_self⟩

/-- A hash that no answer reports has a share of zero. -/
theorem exists_percent_le (h : answers ≠ []) (hash : String) :
    ∃ answer ∈ answers, percent answers hash ≤ percent answers answer.outputHash := by
  by_cases hreported : ∃ answer ∈ answers, answer.outputHash = hash
  · obtain ⟨answer, hmem, heq⟩ := hreported
    exact ⟨answer, hmem, by rw [heq]⟩
  · obtain ⟨answer, hmem⟩ := List.exists_mem_of_ne_nil _ h
    refine ⟨answer, hmem, ?_⟩
    have hnone : reporters answers hash = [] :=
      reporters_eq_nil fun answer hmem heq => hreported ⟨answer, hmem, heq⟩
    rw [percent, hnone, List.length_nil, Nat.mul_zero, Nat.zero_div]
    exact Nat.zero_le _

theorem apart_groups (answers : List Answer) : (groups answers).Pairwise fun x y =>
    share answers.length x.2.length + share answers.length y.2.length ≤ 100 := by
  refine (ordered_groups answers).imp_of_mem fun {x y} hx hy hlt => ?_
  have hnames : x.2 = reporters answers x.1 := names_of_mem_groups hx
  have hnames' : y.2 = reporters answers y.1 := names_of_mem_groups hy
  rw [hnames, hnames']
  exact share_add_le (length_reporters_add_le (Groups.ne_of_lt hlt))

/-! ## The decision -/

/-- A decision is the one of the search without short-cuts. -/
theorem decideByShare_eq_decideInFull (minimum : Nat) (answers : List Answer) :
    decideByShare minimum answers = decideInFull minimum answers := by
  have hsearch : bestGroup minimum answers.length ((groups answers).length == 1) none
      (groups answers) = search minimum answers.length none (groups answers) :=
    bestGroup_eq_search (fun halone => ⟨rfl, (beq_iff_eq.mp halone).le⟩) (by simp)
      (apart_groups answers)
  rw [decideInFull, ← hsearch]
  rfl

theorem pairwise_sortNames (names : List String) :
    (sortNames names).Pairwise fun name later => ¬ Utf8.Before later name := by
  refine (pairwise_mergeSort_text id names).imp fun hle => ?_
  rw [Utf8.before_iff_lt, String.not_lt]
  exact hle

/-- What the search finds is what the answers call for. -/
theorem wins_of_search {percent : Nat} {names : List String} {hash : String}
    (nonempty : answers ≠ [])
    (h : search minimum answers.length none (groups answers) = some (percent, names, hash)) :
    Wins minimum answers ⟨hash, percent, sortNames names⟩ := by
  have hfound := found_search minimum answers.length (groups answers)
  rw [h] at hfound
  have hle := hfound.share_le
  obtain ⟨hshare, hreaches, before, after, hgroups, hbefore, -⟩ := hfound
  have hmem : (hash, names) ∈ groups answers := by
    rw [hgroups]
    exact List.mem_append_right _ List.mem_cons_self
  have hordered := ordered_groups answers
  rw [hgroups] at hordered
  obtain ⟨-, hafter, -⟩ := List.pairwise_append.mp hordered
  refine ⟨exists_answer_of_mem_groups hmem, hshare.trans (share_of_mem_groups hmem), hreaches,
    fun hash' => ?_, fun answer hanswer hequal hne => ?_, pairwise_sortNames names, ?_⟩
  · obtain ⟨answer, hanswer, hle'⟩ := exists_percent_le nonempty hash'
    obtain ⟨names', hmem'⟩ := exists_group hanswer
    refine hle'.trans ?_
    rw [← share_of_mem_groups hmem']
    exact hle _ hmem'
  · -- The groups stand in the order of their hashes, and one of the same share stands later.
    obtain ⟨names', hmem'⟩ := exists_group hanswer
    have hequal' := (share_of_mem_groups hmem').trans hequal
    rw [hgroups] at hmem'
    rcases List.mem_append.mp hmem' with hin | hin
    · exact absurd hequal' (hbefore _ hin).ne
    rcases List.mem_cons.mp hin with hsame | hin
    · cases hsame
      exact absurd rfl hne
    · exact Utf8.before_iff_lt.mpr
        (compareOfLessAndEq_eq_lt.mp ((List.pairwise_cons.mp hafter).1 _ hin))
  · exact (List.mergeSort_perm _ _).trans (List.Perm.of_eq (names_of_mem_groups hmem))

/-- Either the answers call for a decision, or no share reaches the minimum. -/
theorem decideByShare_cases (minimum : Nat) (h : answers ≠ []) :
    (∃ decision, Wins minimum answers decision ∧
      decideByShare minimum answers = .ok decision) ∨
    ((∀ hash, percent answers hash < minimum) ∧
      decideByShare minimum answers = .error (.belowMinimum minimum)) := by
  rw [decideByShare_eq_decideInFull, decideInFull, if_neg (by simpa using h)]
  cases hsearch : search minimum answers.length none (groups answers) with
  | some best => exact Or.inl ⟨_, wins_of_search h hsearch, rfl⟩
  | none =>
    refine Or.inr ⟨fun hash => ?_, rfl⟩
    have hfound := found_search minimum answers.length (groups answers)
    rw [hsearch] at hfound
    obtain ⟨answer, hmem, hle⟩ := exists_percent_le h hash
    obtain ⟨names, hgroup⟩ := exists_group hmem
    have hbelow := hfound _ hgroup
    rw [share_of_mem_groups hgroup] at hbelow
    exact hle.trans_lt hbelow

/-- **What is decided** is what the answers call for. -/
theorem decideByShare_eq_ok_iff :
    decideByShare minimum answers = .ok decision ↔ Wins minimum answers decision := by
  rcases eq_or_ne answers [] with rfl | hsome
  · constructor
    · intro h
      cases h
    · rintro ⟨⟨answer, hmem, -⟩, -⟩
      cases hmem
  rcases decideByShare_cases minimum hsome with ⟨found, hwins, hdecides⟩ | ⟨hbelow, hfails⟩
  · rw [hdecides]
    constructor
    · rintro ⟨⟩
      exact hwins
    · intro h
      rw [h.unique hwins]
  · rw [hfails]
    constructor
    · rintro ⟨⟩
    · intro h
      exact absurd h.minimum_le (Nat.not_le.mpr (hbelow _))

/-- **The order of the answers** does not matter. -/
theorem decideByShare_perm (h : answers.Perm other) (minimum : Nat) :
    decideByShare minimum other = decideByShare minimum answers := by
  rcases eq_or_ne answers [] with rfl | hsome
  · rw [h.nil_eq]
  rcases decideByShare_cases minimum hsome with ⟨found, hwins, hdecides⟩ | ⟨hbelow, hfails⟩
  · rw [hdecides, decideByShare_eq_ok_iff]
    exact hwins.perm h
  · have hother : other ≠ [] := fun heq => hsome (heq ▸ h).eq_nil
    rcases decideByShare_cases minimum hother with ⟨found, hwins, -⟩ | ⟨-, hfails'⟩
    · exact absurd (hwins.perm h.symm).minimum_le (Nat.not_le.mpr (hbelow _))
    · rw [hfails, hfails']

/-- **Decisions by share**, for all answers and every minimum. There is a decision exactly if the share
of some hash reaches the minimum, and it is the one that the answers call for: the hash of the greatest
share, the lowest of several, with that share and the logs that report it. Else none reaches the
minimum, and that is the error. Short-cuts of the search, the order of the answers and a lower minimum
change nothing, and up to a hundred answers no hash is reported by more logs. -/
theorem decideByShare_greatest (nonempty : answers ≠ []) (minimum : Nat) :
    (∀ decision, decideByShare minimum answers = .ok decision ↔ Wins minimum answers decision) ∧
      ((∃ decision, decideByShare minimum answers = .ok decision) ↔
        ∃ hash, minimum ≤ percent answers hash) ∧
      ((∀ hash, percent answers hash < minimum) →
        decideByShare minimum answers = .error (.belowMinimum minimum)) ∧
      decideByShare minimum answers = decideInFull minimum answers ∧
      (∀ other, answers.Perm other →
        decideByShare minimum other = decideByShare minimum answers) ∧
      (∀ lower ≤ minimum, ∀ decision, decideByShare minimum answers = .ok decision →
        decideByShare lower answers = .ok decision) ∧
      (answers.length ≤ 100 → ∀ decision, decideByShare minimum answers = .ok decision →
        ∀ hash, (reporters answers hash).length ≤
          (reporters answers decision.outputHash).length) := by
  refine ⟨fun _ => decideByShare_eq_ok_iff, ⟨?_, ?_⟩, fun hbelow => ?_,
    decideByShare_eq_decideInFull minimum answers, fun _ h => decideByShare_perm h minimum,
    fun lower hle decision h => ?_, fun few decision h => ?_⟩
  · rintro ⟨decision, h⟩
    exact ⟨decision.outputHash, (decideByShare_eq_ok_iff.mp h).minimum_le⟩
  · rintro ⟨hash, hreaches⟩
    rcases decideByShare_cases minimum nonempty with ⟨decision, -, h⟩ | ⟨hbelow, -⟩
    · exact ⟨decision, h⟩
    · exact absurd hreaches (Nat.not_le.mpr (hbelow hash))
  · rcases decideByShare_cases minimum nonempty with ⟨decision, hwins, -⟩ | ⟨-, h⟩
    · exact absurd hwins.minimum_le (Nat.not_le.mpr (hbelow _))
    · exact h
  · exact decideByShare_eq_ok_iff.mpr ((decideByShare_eq_ok_iff.mp h).mono hle)
  · exact (decideByShare_eq_ok_iff.mp h).length_le few

/-- Two hashes have half of the answers each, and the lower one wins whichever is reported first; more
than half has none. -/
theorem decideByShare_greatest_tie : ∃ answers : List Answer,
    answers = [⟨"a", "Q"⟩, ⟨"d", "P"⟩, ⟨"b", "Q"⟩, ⟨"c", "P"⟩] ∧
    Wins 50 answers ⟨"P", 50, ["c", "d"]⟩ ∧
    decideByShare 10 answers = .ok ⟨"P", 50, ["c", "d"]⟩ ∧
    decideByShare 50 answers.reverse = .ok ⟨"P", 50, ["c", "d"]⟩ ∧
    (∀ hash, (reporters answers hash).length ≤ 2) := by
  have hgroups : groups [⟨"a", "Q"⟩, ⟨"d", "P"⟩, ⟨"b", "Q"⟩, ⟨"c", "P"⟩] =
      [("P", ["d", "c"]), ("Q", ["a", "b"])] := by decide
  have hsort : sortNames ["d", "c"] = ["c", "d"] := by
    simp [sortNames, List.mergeSort, List.MergeSort.Internal.splitInTwo]
  have h : decideByShare 50 [⟨"a", "Q"⟩, ⟨"d", "P"⟩, ⟨"b", "Q"⟩, ⟨"c", "P"⟩] =
      .ok ⟨"P", 50, ["c", "d"]⟩ := by
    simp [decideByShare, hgroups, bestGroup, share, hsort]
  have nonempty : [⟨"a", "Q"⟩, ⟨"d", "P"⟩, ⟨"b", "Q"⟩, (⟨"c", "P"⟩ : Answer)] ≠ [] := by decide
  obtain ⟨hwins, -, -, -, hperm, hlower, hmost⟩ := decideByShare_greatest nonempty 50
  exact ⟨_, rfl, (hwins _).mp h, hlower 10 (by decide) _ h,
    (hperm _ (List.reverse_perm _).symm).trans h, hmost (by decide) _ h⟩

end Decide

end TransparencyLog.Quorum
