import Mathlib.Data.List.Induction
import TransparencyLog.Quorum.Percentage

/-!
# Groups of answers

Answers are put into groups one after another. The groups are kept in ascending order of their hashes,
so a hash has at most one of them: the logs that report it, in the order of their answers.

* `Quorum.reporters`: the logs that report a hash;
* `Quorum.Groups.lookup_insert`: what one more answer does;
* **`Quorum.lookup_groups`**, `Quorum.ordered_groups`: the groups of all answers.
-/

namespace TransparencyLog.Quorum

/-- The logs that report a hash, in order of the answers. -/
def reporters (answers : List Answer) (hash : String) : List String :=
  (answers.filter fun answer => answer.outputHash == hash).map Answer.logName

theorem reporters_concat (answers : List Answer) (answer : Answer) (hash : String) :
    reporters (answers ++ [answer]) hash =
      reporters answers hash ++ if answer.outputHash = hash then [answer.logName] else [] := by
  unfold reporters
  rw [List.filter_append, List.map_append]
  by_cases h : answer.outputHash = hash <;> simp [h]

theorem mem_reporters {answers : List Answer} {hash name : String} :
    name ∈ reporters answers hash ↔
      ∃ answer ∈ answers, answer.logName = name ∧ answer.outputHash = hash := by
  simp only [reporters, List.mem_map, List.mem_filter, beq_iff_eq]
  constructor
  · rintro ⟨answer, ⟨hmem, hhash⟩, hname⟩
    exact ⟨answer, hmem, hname, hhash⟩
  · rintro ⟨answer, hmem, hname, hhash⟩
    exact ⟨answer, ⟨hmem, hhash⟩, hname⟩

namespace Groups

variable {g : Groups} {answer : Answer} {hash : String} {names : List String}
  {x : String × List String}

/-- The groups stand in ascending order of their hashes. -/
def Ordered (g : Groups) : Prop := g.Pairwise fun x y => compare x.1 y.1 = .lt

theorem ne_of_lt {first second : String} (h : compare first second = .lt) : first ≠ second := by
  rintro rfl
  cases h.symm.trans (Std.ReflCmp.compare_self : compare first first = .eq)

theorem lookup_cons (x : String × List String) (g : Groups) (hash : String) :
    List.lookup hash (x :: g) = if hash = x.1 then some x.2 else g.lookup hash := by
  show List.lookup hash ((x.1, x.2) :: g) = _
  rw [List.lookup_cons]
  by_cases h : hash = x.1
  · rw [if_pos h, beq_iff_eq.mpr h]
  · rw [if_neg h, beq_eq_false_iff_ne.mpr h]

/-- A hash before all groups has none. -/
theorem lookup_of_before (h : ∀ y ∈ g, compare hash y.1 = .lt) : g.lookup hash = none := by
  rw [List.lookup_eq_none_iff]
  intro y hy
  rw [bne_iff_ne]
  exact ne_of_lt (h y hy)

/-- A hash before the first group is before them all. -/
theorem Ordered.before (h : Ordered (x :: g)) (hlt : compare hash x.1 = .lt) :
    ∀ y ∈ x :: g, compare hash y.1 = .lt := by
  intro y hy
  rcases List.mem_cons.mp hy with rfl | hmem
  · exact hlt
  · exact Std.TransCmp.lt_trans hlt ((List.pairwise_cons.mp h).1 y hmem)

/-- The group of a hash is the one that is found for it. -/
theorem Ordered.lookup_of_mem (h : Ordered g) (hmem : (hash, names) ∈ g) :
    g.lookup hash = some names := by
  induction g with
  | nil => cases hmem
  | cons x g ih =>
    rw [lookup_cons]
    rcases List.mem_cons.mp hmem with rfl | hrest
    · rw [if_pos rfl]
    · have hlt := (List.pairwise_cons.mp h).1 _ hrest
      rw [if_neg (ne_of_lt hlt).symm]
      exact ih (List.pairwise_cons.mp h).2 hrest

/-- **One more answer** joins the group of its hash. -/
theorem lookup_insert (ordered : Ordered g) : (g.insert answer).lookup hash =
    if hash = answer.outputHash then some ((g.lookup hash).getD [] ++ [answer.logName])
    else g.lookup hash := by
  induction g with
  | nil => rw [insert, lookup_cons, List.lookup_nil, Option.getD_none, List.nil_append]
  | cons x g ih =>
    obtain ⟨first, names⟩ := x
    unfold insert
    cases hcmp : compare answer.outputHash first with
    | lt =>
      simp only
      rw [lookup_cons]
      by_cases h : hash = answer.outputHash
      · rw [if_pos h, if_pos h, h, lookup_of_before (ordered.before hcmp)]
        rfl
      · rw [if_neg h, if_neg h]
    | eq =>
      obtain rfl := Std.LawfulEqCmp.compare_eq_iff_eq.mp hcmp
      simp only [lookup_cons]
      by_cases h : hash = answer.outputHash
      · simp only [if_pos h, Option.getD_some]
      · simp only [if_neg h]
    | gt =>
      simp only [lookup_cons]
      by_cases h : hash = first
      · have hne : hash ≠ answer.outputHash := h ▸ ne_of_lt (Std.OrientedCmp.lt_of_gt hcmp)
        rw [if_pos h, if_neg hne, if_pos h]
      · rw [if_neg h, if_neg h, ih (List.pairwise_cons.mp ordered).2]

theorem mem_insert (h : x ∈ g.insert answer) : x.1 = answer.outputHash ∨ ∃ y ∈ g, y.1 = x.1 := by
  induction g with
  | nil =>
    rw [List.mem_singleton.mp h]
    exact Or.inl rfl
  | cons y g ih =>
    obtain ⟨first, names⟩ := y
    unfold insert at h
    cases hcmp : compare answer.outputHash first with
    | lt =>
      simp only [hcmp, List.mem_cons] at h
      rcases h with rfl | h
      · exact Or.inl rfl
      · exact Or.inr ⟨x, List.mem_cons.mpr h, rfl⟩
    | eq =>
      simp only [hcmp, List.mem_cons] at h
      rcases h with rfl | h
      · exact Or.inl (Std.LawfulEqCmp.compare_eq_iff_eq.mp hcmp).symm
      · exact Or.inr ⟨x, List.mem_cons_of_mem _ h, rfl⟩
    | gt =>
      simp only [hcmp, List.mem_cons] at h
      rcases h with rfl | h
      · exact Or.inr ⟨_, List.mem_cons_self, rfl⟩
      · exact (ih h).imp_right fun ⟨y, hy, heq⟩ => ⟨y, List.mem_cons_of_mem _ hy, heq⟩

theorem Ordered.insert (h : Ordered g) (answer : Answer) : Ordered (g.insert answer) := by
  induction g with
  | nil => exact List.pairwise_singleton _ _
  | cons x g ih =>
    obtain ⟨first, names⟩ := x
    obtain ⟨hfirst, hrest⟩ := List.pairwise_cons.mp h
    unfold Groups.insert
    cases hcmp : compare answer.outputHash first with
    | lt => exact List.pairwise_cons.mpr ⟨h.before hcmp, h⟩
    | eq => exact List.pairwise_cons.mpr ⟨hfirst, hrest⟩
    | gt =>
      refine List.pairwise_cons.mpr ⟨fun y hy => ?_, ih hrest⟩
      rcases mem_insert hy with heq | ⟨z, hz, heq⟩
      · rw [heq]
        exact Std.OrientedCmp.lt_of_gt hcmp
      · rw [← heq]
        exact hfirst z hz

end Groups

/-! ## The groups of all answers -/

theorem groups_concat (answers : List Answer) (answer : Answer) :
    groups (answers ++ [answer]) = (groups answers).insert answer := by
  rw [groups, List.foldl_append, List.foldl_cons, List.foldl_nil, groups]

theorem ordered_groups (answers : List Answer) : Groups.Ordered (groups answers) := by
  induction answers using List.reverseRecOn with
  | nil => exact List.Pairwise.nil
  | append_singleton answers answer ih =>
    rw [groups_concat]
    exact ih.insert answer

/-- **The group of a hash** has the logs that report it. -/
theorem lookup_groups (answers : List Answer) (hash : String) :
    ((groups answers).lookup hash).getD [] = reporters answers hash := by
  induction answers using List.reverseRecOn with
  | nil => rfl
  | append_singleton answers answer ih =>
    rw [groups_concat, Groups.lookup_insert (ordered_groups answers), reporters_concat, ← ih]
    by_cases h : hash = answer.outputHash
    · rw [if_pos h, if_pos h.symm, Option.getD_some]
    · rw [if_neg h, if_neg (Ne.symm h), List.append_nil]

theorem names_of_mem_groups {answers : List Answer} {hash : String} {names : List String}
    (h : (hash, names) ∈ groups answers) : names = reporters answers hash := by
  rw [← lookup_groups, (ordered_groups answers).lookup_of_mem h, Option.getD_some]

end TransparencyLog.Quorum
