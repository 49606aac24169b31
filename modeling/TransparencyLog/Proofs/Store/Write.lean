import TransparencyLog.Store.Contents

/-!
# Running a write transaction

A write transaction is run step by step: what each of its steps does to the draft.

* `Write.bind_ok`, `Write.bind_error`: the first step decides how the rest starts, or ends it;
* `Write.exists_of_bind`: what has happened on the way to a result;
* `Write.read_ok`, `Write.lift_ok`: steps that leave the draft as it is;
* `Write.Keeps`: what a transaction keeps, if it succeeds; one lemma for every kind of step;
* `Write.Ignores`: a transaction that takes one course whatever stands at an address, with a lemma for
  every kind of step;
* `Snapshot.fetch_eq_ok_iff`: what is read is what stands at the address.
-/

namespace TransparencyLog

section Steps

variable {α β : Type} {draft draft' : Draft} {error : LogError}

theorem Write.bind_ok {first : Write α} {a : α} (h : first draft = .ok (a, draft'))
    (rest : α → Write β) : (first >>= rest) draft = rest a draft' := by
  change (first draft >>= fun (a, d) => rest a d) = _
  rw [h]
  rfl

theorem Write.bind_error {first : Write α} (h : first draft = .error error) (rest : α → Write β) :
    (first >>= rest) draft = .error error := by
  change (first draft >>= fun (a, d) => rest a d) = _
  rw [h]
  rfl

theorem Write.read_ok {query : Snapshot → Except LogError α} {a : α}
    (h : query draft.get? = .ok a) : Write.read query draft = .ok (a, draft) := by
  rw [Write.read, h]
  rfl

theorem Write.read_error {query : Snapshot → Except LogError α}
    (h : query draft.get? = .error error) : Write.read query draft = .error error := by
  rw [Write.read, h]
  rfl

theorem Write.lift_ok {e : Except LogError α} {a : α} (h : e = .ok a) :
    (liftM e : Write α) draft = .ok (a, draft) := by
  rw [h]
  rfl

theorem Write.lift_error {e : Except LogError α} (h : e = .error error) :
    (liftM e : Write α) draft = .error error := by
  rw [h]
  rfl

theorem Write.exists_of_bind {first : Write α} {rest : α → Write β} {b : β}
    (h : (first >>= rest) draft = .ok (b, draft')) :
    ∃ a between, first draft = .ok (a, between) ∧ rest a between = .ok (b, draft') := by
  change (first draft >>= fun (a, d) => rest a d) = _ at h
  cases hfirst : first draft with
  | error e =>
    rw [hfirst] at h
    cases h
  | ok result =>
    rw [hfirst] at h
    exact ⟨result.1, result.2, rfl, h⟩

theorem Write.of_read {query : Snapshot → Except LogError α} {a : α}
    (h : Write.read query draft = .ok (a, draft')) : query draft.get? = .ok a ∧ draft' = draft := by
  unfold Write.read at h
  cases hquery : query draft.get? with
  | error e =>
    rw [hquery] at h
    cases h
  | ok found =>
    rw [hquery] at h
    obtain ⟨rfl, rfl⟩ := Prod.mk.inj (Except.ok.inj h)
    exact ⟨rfl, rfl⟩

theorem Write.of_lift {e : Except LogError α} {a : α}
    (h : (liftM e : Write α) draft = .ok (a, draft')) : e = .ok a ∧ draft' = draft := by
  cases e with
  | error e => cases h
  | ok found =>
    obtain ⟨rfl, rfl⟩ := Prod.mk.inj (Except.ok.inj h)
    exact ⟨rfl, rfl⟩

theorem Write.put_apply (bucket : String) (key value : Bytes) :
    Write.put bucket key value draft = .ok ((), draft.set bucket key value) := rfl

theorem Write.pure_apply (a : α) : (pure a : Write α) draft = .ok (a, draft) := rfl

end Steps

/-! ## What a transaction keeps -/

/-- If the property holds of what a transaction finds and the transaction succeeds, then it holds of
what the transaction leaves. -/
def Write.Keeps {α : Type} (P : Snapshot → Prop) (body : Write α) : Prop :=
  ∀ draft a draft', body draft = .ok (a, draft') → P draft.get? → P draft'.get?

section Keeps

variable {α β : Type} {P : Snapshot → Prop}

theorem Write.Keeps.bind {first : Write α} {rest : α → Write β} (h : first.Keeps P)
    (h' : ∀ a, (rest a).Keeps P) : (first >>= rest).Keeps P := by
  intro draft b draft' hrun hbefore
  obtain ⟨a, between, hfirst, hrest⟩ := Write.exists_of_bind hrun
  exact h' a between b draft' hrest (h draft a between hfirst hbefore)

theorem Write.keeps_pure (a : α) : Write.Keeps P (pure a) := by
  rintro draft _ _ ⟨⟩ hbefore
  exact hbefore

theorem Write.keeps_read (query : Snapshot → Except LogError α) : (Write.read query).Keeps P := by
  intro draft a draft' hrun hbefore
  obtain ⟨-, rfl⟩ := Write.of_read hrun
  exact hbefore

theorem Write.keeps_lift (e : Except LogError α) : Write.Keeps P (liftM e) := by
  intro draft a draft' hrun hbefore
  obtain ⟨-, rfl⟩ := Write.of_lift hrun
  exact hbefore

theorem Write.keeps_put {bucket : String} {key value : Bytes}
    (h : ∀ draft : Draft, P draft.get? → P (draft.set bucket key value).get?) :
    (Write.put bucket key value).Keeps P := by
  rintro draft _ _ ⟨⟩ hbefore
  exact h draft hbefore

end Keeps

/-! ## What a transaction ignores -/

/-- Two views are the same, except perhaps at an address. -/
def Snapshot.AgreeOff (address : Address) (view view' : Snapshot) : Prop :=
  ∀ other, other ≠ address → view' other = view other

/-- A transaction that succeeds gives the same result whatever stands at the address, and leaves views
that agree off it. -/
def Write.Ignores {α : Type} (address : Address) (body : Write α) : Prop :=
  ∀ draft draft' : Draft, Snapshot.AgreeOff address draft.get? draft'.get? →
    ∀ a next, body draft = .ok (a, next) → ∃ next', body draft' = .ok (a, next') ∧
      Snapshot.AgreeOff address next.get? next'.get?

section Ignores

variable {α β : Type} {address : Address}

theorem Snapshot.AgreeOff.set {draft draft' : Draft}
    (h : Snapshot.AgreeOff address draft.get? draft'.get?) (bucket : String) (key value : Bytes) :
    Snapshot.AgreeOff address (draft.set bucket key value).get? (draft'.set bucket key value).get? := by
  intro other hother
  rw [Draft.get?_set, Draft.get?_set, h other hother]

theorem Write.Ignores.bind {first : Write α} {rest : α → Write β} (h : first.Ignores address)
    (h' : ∀ a, (rest a).Ignores address) : (first >>= rest).Ignores address := by
  intro draft draft' same b last hrun
  obtain ⟨a, next, hfirst, hrest⟩ := Write.exists_of_bind hrun
  obtain ⟨next', hfirst', hnext⟩ := h draft draft' same a next hfirst
  obtain ⟨last', hrest', hlast⟩ := h' a next next' hnext b last hrest
  exact ⟨last', (Write.bind_ok hfirst' rest).trans hrest', hlast⟩

theorem Write.ignores_pure (a : α) : Write.Ignores address (pure a) := by
  rintro draft draft' same _ _ ⟨⟩
  exact ⟨draft', rfl, same⟩

theorem Write.ignores_read {query : Snapshot → Except LogError α}
    (h : ∀ view view', Snapshot.AgreeOff address view view' → query view' = query view) :
    (Write.read query).Ignores address := by
  intro draft draft' same a next hrun
  obtain ⟨hquery, rfl⟩ := Write.of_read hrun
  exact ⟨draft', Write.read_ok ((h _ _ same).trans hquery), same⟩

theorem Write.ignores_lift (e : Except LogError α) : Write.Ignores address (liftM e) := by
  intro draft draft' same a next hrun
  obtain ⟨rfl, rfl⟩ := Write.of_lift hrun
  exact ⟨draft', rfl, same⟩

theorem Write.ignores_put (bucket : String) (key value : Bytes) :
    (Write.put bucket key value).Ignores address := by
  rintro draft draft' same _ _ ⟨⟩
  exact ⟨_, rfl, same.set bucket key value⟩

end Ignores

/-! ## Reading -/

theorem Draft.get?_base (contents : Contents) :
    (⟨contents, ∅⟩ : Draft).get? = contents.snapshot := by
  funext address
  rw [Draft.get?, Std.ExtTreeMap.getElem?_empty, Option.none_or, Contents.snapshot]

/-- Writing once more what is stored already changes nothing. -/
theorem Draft.merged_set_of_stored {contents : Contents} {bucket : String} {key bytes : Bytes}
    (h : contents.snapshot ⟨bucket, key⟩ = some bytes) :
    (Draft.set ⟨contents, ∅⟩ bucket key bytes).merged = contents := by
  apply Std.ExtTreeMap.ext_getElem?
  intro address
  rw [Draft.getElem?_merged, Draft.get?_set, Draft.get?_base]
  by_cases heq : address = ⟨bucket, key⟩
  · subst heq
    exact (if_pos rfl).trans h.symm
  · exact if_neg heq

theorem Snapshot.fetch_eq_ok_iff {view : Snapshot} {bucket : String} {key value : Bytes} :
    view.fetch bucket key = .ok value ↔ view ⟨bucket, key⟩ = some value := by
  rw [Snapshot.fetch]
  cases view ⟨bucket, key⟩ <;> simp

theorem Snapshot.fetch_congr {view view' : Snapshot} {bucket : String} {key : Bytes}
    (h : view ⟨bucket, key⟩ = view' ⟨bucket, key⟩) : view.fetch bucket key = view'.fetch bucket key := by
  rw [Snapshot.fetch, h, Snapshot.fetch]

end TransparencyLog
