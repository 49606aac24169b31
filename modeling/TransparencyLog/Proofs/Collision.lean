import Mathlib.Data.Set.Function
import Mathlib.Data.Set.Insert
import TransparencyLog.Digest

/-!
# Collisions

What a root says about the leaves below it holds as long as no two different byte strings with one
hash turn up. Nothing is assumed about SHA-256 here: a statement that needs the absence of a
collision names the two sets of strings among which it would be found.

* `leafInput`, `branchInput`: what is hashed for a leaf and for a branch;
* `Collides`, `CollisionBetween`;
* **`branchHash_cases`**: two branches with one hash have the same children, or their inputs
  collide.
-/

namespace TransparencyLog

/-- What is hashed for a leaf. -/
def leafInput (data : Bytes) : Bytes := 0 :: data

/-- What is hashed for a branch: 65 bytes. -/
def branchInput (left right : Digest) : Bytes := 1 :: (left.bytes ++ right.bytes)

theorem leafInput_injective : Function.Injective leafInput := fun _ _ h => List.tail_eq_of_cons_eq h

theorem branchInput_inj {a b c d : Digest} :
    branchInput a b = branchInput c d ↔ a = c ∧ b = d := by
  constructor
  · intro h
    have hlen : a.bytes.length = c.bytes.length := a.length_eq.trans c.length_eq.symm
    obtain ⟨hl, hr⟩ := List.append_inj (List.tail_eq_of_cons_eq h) hlen
    exact ⟨Digest.ext hl, Digest.ext hr⟩
  · rintro ⟨rfl, rfl⟩; rfl

/-- Two different byte strings with one hash. -/
def Collides (a b : Bytes) : Prop := a ≠ b ∧ sha256 a = sha256 b

/-- A collision with one string in each of two sets. -/
def CollisionBetween (first second : Set Bytes) : Prop :=
  ∃ a ∈ first, ∃ b ∈ second, Collides a b

theorem CollisionBetween.mono {first second first' second' : Set Bytes}
    (h : CollisionBetween first second) (h₁ : first ⊆ first') (h₂ : second ⊆ second') :
    CollisionBetween first' second' := by
  obtain ⟨a, ha, b, hb, hab⟩ := h
  exact ⟨a, h₁ ha, b, h₂ hb, hab⟩

theorem sha256_cases {a b : Bytes} (h : sha256 a = sha256 b) : a = b ∨ Collides a b :=
  (eq_or_ne a b).imp_right fun hab => ⟨hab, h⟩

theorem injOn_or_collision (strings : Set Bytes) :
    Set.InjOn sha256 strings ∨ CollisionBetween strings strings := by
  refine (Classical.em (CollisionBetween strings strings)).symm.imp_left fun hnone => ?_
  intro a ha b hb heq
  exact (sha256_cases heq).resolve_right fun hcollides => hnone ⟨a, ha, b, hb, hcollides⟩

/-- **Branches with one hash have the same children, or their inputs collide.** -/
theorem branchHash_cases {a b c d : Digest} (h : branchHash a b = branchHash c d) :
    (a = c ∧ b = d) ∨ Collides (branchInput a b) (branchInput c d) := by
  rcases sha256_cases h with heq | hcol
  · exact Or.inl (branchInput_inj.mp heq)
  · exact Or.inr hcol

end TransparencyLog
