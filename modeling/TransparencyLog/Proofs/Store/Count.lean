import Mathlib.Data.Nat.Digits.Defs
import TransparencyLog.Proofs.Store.File

/-!
# How much a transaction writes

A write adds at most one entry to a store. So the entries that a transaction adds can be counted by its
steps, whatever stands in the store, and contents that fit 64 bits still fit afterwards as long as there
are not too many of them.

* `Address.Short`: the lengths of an entry fit 64 bits;
* `Draft.Within`: so many entries at most, and all of them short;
* `Write.Adds`: so many entries at most are added, and all of them short; a lemma for every kind of step;
* `Store.Within`, **`Store.Within.update`**: what a transaction adds to a store;
* **`Store.Within.fits`**: contents fit unless there are too many entries.
-/

namespace TransparencyLog

/-- The lengths of an entry can be written in 64 bits. -/
structure Address.Short (address : Address) (value : Bytes) : Prop where
  bucket_lt : (Bytes.ofText address.bucket).length < UInt64.size
  key_lt : address.key.length < UInt64.size
  value_lt : value.length < UInt64.size

theorem Bytes.length_ofText_le (text : String) : (ofText text).length ≤ 4 * text.length := by
  rw [ofText, List.length_flatMap, ← String.length_toList]
  induction text.toList with
  | nil => exact Nat.le_refl _
  | cons c rest ih =>
    have hc := String.length_utf8EncodeChar c
    have hsize := Char.utf8Size_le_four c
    rw [List.map_cons, List.sum_cons, List.length_cons]
    omega

/-- A number is written with fewer than 64 bits can count. -/
theorem Bytes.length_ofText_toString_le {n : Nat} (h : n < 10 ^ 30) :
    (ofText (toString n)).length ≤ 120 := by
  have hdigits : (toString n).length ≤ 30 := Nat.repr_length n 30 (by decide) h
  have hbytes := length_ofText_le (toString n)
  omega

/-! ## Drafts -/

/-- The draft has at most so many entries, and all of them are short. -/
structure Draft.Within (draft : Draft) (count : Nat) : Prop where
  size_le : draft.base.size + draft.pending.size ≤ count
  short : ∀ address value, draft.get? address = some value → address.Short value

namespace Draft

variable {draft : Draft} {count : Nat}

theorem Within.mono (h : draft.Within count) {more : Nat} (hle : count ≤ more) : draft.Within more :=
  ⟨Nat.le_trans h.size_le hle, h.short⟩

theorem within_of_fits {contents : Contents} (fits : contents.Fits) (hsize : contents.size ≤ count) :
    (⟨contents, ∅⟩ : Draft).Within count where
  size_le := by
    rw [Std.ExtTreeMap.size_empty]
    exact hsize
  short address value hget := by
    rw [get?_base] at hget
    obtain ⟨hbucket, hkey, hvalue⟩ := fits.entry_lt address value hget
    exact ⟨hbucket, hkey, hvalue⟩

theorem Within.set (h : draft.Within count) {bucket : String} {key value : Bytes}
    (short : Address.Short ⟨bucket, key⟩ value) : (draft.set bucket key value).Within (count + 1) where
  size_le := by
    have hsize := h.size_le
    have hinsert : (draft.set bucket key value).pending.size ≤ draft.pending.size + 1 :=
      Std.ExtTreeMap.size_insert_le
    show draft.base.size + _ ≤ count + 1
    omega
  short address found hget := by
    rw [get?_set] at hget
    split at hget
    · next heq =>
      obtain rfl := Option.some.inj hget
      rwa [heq]
    · exact h.short address found hget

theorem Within.committed (h : draft.Within count) : (⟨draft.merged, ∅⟩ : Draft).Within count where
  size_le := by
    rw [Std.ExtTreeMap.size_empty]
    exact Nat.le_trans Std.ExtTreeMap.size_union_le_size_add_size h.size_le
  short address value hget := by
    rw [get?_base] at hget
    exact h.short address value ((getElem?_merged draft address).symm.trans hget)

/-- **Contents fit**, unless there are too many entries. -/
theorem fits_of_within {contents : Contents} (h : (⟨contents, ∅⟩ : Draft).Within count)
    (hlt : count < UInt64.size) : contents.Fits where
  size_lt := Nat.lt_of_le_of_lt (Nat.le_trans (Nat.le_add_right _ _) h.size_le) hlt
  entry_lt address value hget := by
    obtain ⟨hbucket, hkey, hvalue⟩ := h.short address value ((get?_base contents).symm ▸ hget)
    exact ⟨hbucket, hkey, hvalue⟩

end Draft

/-! ## Transactions -/

/-- A transaction that succeeds adds at most so many entries, and all of them are short. -/
def Write.Adds {α : Type} (count : Nat) (body : Write α) : Prop :=
  ∀ draft a draft', body draft = .ok (a, draft') → ∀ before, draft.Within before →
    draft'.Within (before + count)

namespace Write

variable {α β : Type} {first : Write α} {rest : α → Write β} {count more : Nat}

theorem Adds.mono (h : first.Adds count) (hle : count ≤ more) : first.Adds more :=
  fun draft a draft' hrun before hbefore =>
    (h draft a draft' hrun before hbefore).mono (Nat.add_le_add_left hle before)

/-- What comes after a step may count on what the step can give. -/
theorem Adds.bind (h : first.Adds count)
    (h' : ∀ draft a draft', first draft = .ok (a, draft') → (rest a).Adds more) :
    (first >>= rest).Adds (count + more) := by
  intro draft b draft' hrun before hbefore
  obtain ⟨a, between, hfirst, hrest⟩ := exists_of_bind hrun
  have hbetween := h draft a between hfirst before hbefore
  rw [← Nat.add_assoc]
  exact h' draft a between hfirst between b draft' hrest _ hbetween

theorem adds_pure (a : α) : Adds 0 (pure a : Write α) := by
  rintro draft _ _ ⟨⟩ before hbefore
  exact hbefore

/-- Reading adds nothing. -/
theorem adds_read_bind {query : Snapshot → Except LogError α}
    (h : ∀ view a, query view = .ok a → (rest a).Adds count) :
    (Write.read query >>= rest).Adds count := by
  intro draft b draft' hrun before hbefore
  obtain ⟨a, between, hread, hrest⟩ := exists_of_bind hrun
  obtain ⟨hquery, rfl⟩ := of_read hread
  exact h _ a hquery between b draft' hrest before hbefore

theorem adds_lift_bind {e : Except LogError α} (h : ∀ a, e = .ok a → (rest a).Adds count) :
    ((liftM e : Write α) >>= rest).Adds count := by
  intro draft b draft' hrun before hbefore
  obtain ⟨a, between, hlift, hrest⟩ := exists_of_bind hrun
  obtain ⟨he, rfl⟩ := of_lift hlift
  exact h a he between b draft' hrest before hbefore

theorem adds_put {bucket : String} {key value : Bytes} (short : Address.Short ⟨bucket, key⟩ value) :
    (Write.put bucket key value).Adds 1 := by
  rintro draft _ _ ⟨⟩ before hbefore
  exact hbefore.set short

end Write

/-! ## Stores -/

/-- The store has at most so many entries, and all of them are short. -/
def Store.Within (store : Store) (count : Nat) : Prop := Draft.Within ⟨store.contents, ∅⟩ count

namespace Store

variable {α : Type} {store store' : Store} {body : Write α} {count more : Nat}

theorem within_of_fits (fits : store.contents.Fits) (hsize : store.contents.size ≤ count) :
    store.Within count := Draft.within_of_fits fits hsize

theorem Within.mono (h : store.Within count) (hle : count ≤ more) : store.Within more :=
  Draft.Within.mono h hle

theorem Within.congr (h : store.Within count) (same : store'.contents = store.contents) :
    store'.Within count := by
  rw [Within, same]
  exact h

theorem Within.fits (h : store.Within count) (hlt : count < UInt64.size) : store.contents.Fits :=
  Draft.fits_of_within h hlt

/-- **A transaction** adds to the store what it has added to its draft, or nothing. -/
theorem Within.update (h : store.Within count) (adds : body.Adds more) (fault : Option Fault) :
    (store.update body fault).2.Within (count + more) := by
  have hsame : store.Within (count + more) := h.mono (Nat.le_add_right count more)
  rcases update_fault store body fault with heq | ⟨-, after, heq, hafter, -⟩
  case inr =>
    rw [heq]
    exact hsame.congr hafter
  rw [heq]
  cases hrun : body ⟨store.contents, ∅⟩ with
  | error e =>
    rw [update_of_error hrun]
    exact hsame
  | ok result =>
    obtain ⟨a, draft⟩ := result
    cases hempty : draft.pending.isEmpty with
    | true =>
      rw [update_of_empty hrun hempty]
      exact hsame
    | false =>
      by_cases hclear : store.Clear
      · have hdraft := adds _ _ _ hrun _ h
        rw [update_of_clear hclear hrun hempty]
        refine Draft.Within.committed hdraft
      · obtain ⟨after, hupdate, halike⟩ := update_of_not_clear hclear hrun hempty
        rw [hupdate]
        exact hsame.congr halike.contents

end Store

end TransparencyLog
