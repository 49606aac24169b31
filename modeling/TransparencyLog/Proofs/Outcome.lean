import Mathlib.Data.List.Forall2

/-!
# Outcomes

Reading and writing end with a value or with a fault. How a reading ends that is put together from
others follows from how these end.

* `ok_bind`, `bind_eq_ok_iff`, `map_eq_ok_iff`, `map_eq_error_iff`: one after the other;
* `mapM_map_pure`, **`mapM_eq_ok_iff`**, `exists_of_mem_mapM`: item by item.
-/

namespace TransparencyLog

section Outcome

variable {ε α β : Type} {outcome : Except ε α}

theorem ok_bind (a : α) (next : α → Except ε β) : (Except.ok a >>= next) = next a := rfl

theorem bind_eq_ok_iff {next : α → Except ε β} {b : β} :
    (outcome >>= next) = .ok b ↔ ∃ a, outcome = .ok a ∧ next a = .ok b := by
  cases outcome <;> simp [bind, Except.bind]

theorem map_eq_ok_iff {f : α → β} {b : β} : outcome.map f = .ok b ↔ ∃ a, outcome = .ok a ∧ f a = b := by
  cases outcome <;> simp [Except.map]

theorem map_eq_error_iff {f : α → β} {e : ε} : outcome.map f = .error e ↔ outcome = .error e := by
  cases outcome <;> simp [Except.map]

/-- Items are read together exactly if they are read one by one. -/
theorem mapM_eq_ok_iff {read : α → Except ε β} {items : List α} {values : List β} :
    items.mapM read = .ok values ↔ List.Forall₂ (fun a b => read a = .ok b) items values := by
  induction items generalizing values with
  | nil => simp [pure, Except.pure, eq_comm]
  | cons a items ih =>
    simp only [List.mapM_cons, bind_eq_ok_iff, ih, List.forall₂_cons_left_iff, pure, Except.pure,
      Except.ok.injEq]
    constructor
    · rintro ⟨b, hfirst, bs, hrest, rfl⟩
      exact ⟨b, bs, hfirst, hrest, rfl⟩
    · rintro ⟨b, bs, hfirst, hrest, rfl⟩
      exact ⟨b, hfirst, bs, hrest, rfl⟩

/-- Every value is read from some item. -/
theorem exists_of_mem_mapM {read : α → Except ε β} {items : List α} {values : List β}
    (h : items.mapM read = .ok values) {b : β} (hb : b ∈ values) : ∃ a ∈ items, read a = .ok b := by
  have hall := mapM_eq_ok_iff.mp h
  clear h
  induction hall with
  | nil => cases hb
  | cons hread _ ih =>
    rcases List.mem_cons.mp hb with rfl | hb
    · exact ⟨_, List.mem_cons_self, hread⟩
    · obtain ⟨a, ha, hread⟩ := ih hb
      exact ⟨a, List.mem_cons_of_mem _ ha, hread⟩

end Outcome

/-- Items that are read back one by one are read back together. -/
theorem mapM_map_pure {m : Type → Type} [Monad m] [LawfulMonad m] {α β : Type} {write : α → β}
    {read : β → m α} (h : ∀ a, read (write a) = pure a) (items : List α) :
    (items.map write).mapM read = pure items := by
  induction items with
  | nil => simp
  | cons a items ih => simp [h, ih]

end TransparencyLog
