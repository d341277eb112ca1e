import ApiModel.Proofs.Declaring

/-!
Programs that leave the model as it was when they fail. `Atomic` follows the rest of a program and
still speaks of the model that the whole started from: a refusal behind a write breaks it, so there
every refusal has to be ruled out. There is one rule for each way of building programs.
-/

namespace ApiModel.Model

variable {α β : Type} {base m : Model} {x : ModelM α} {Q : α → Model → Prop}
  {R : β → Model → Prop}

/-- From `m` on, the program fails only where the model is still `base`, and `post` holds if it
succeeds. -/
structure Atomic (base m : Model) (x : ModelM α) (post : α → Model → Prop) : Prop where
  error : ∀ {failure m'}, x m = .error failure m' → m' = base
  post : ∀ {a m'}, x m = .ok a m' → post a m'

namespace Atomic

theorem of_ok {a : α} {m' : Model} (h : x m = .ok a m') (hq : Q a m') : Atomic base m x Q where
  error he := by
    rw [h] at he
    cases he
  post h' := by
    rw [h] at h'
    cases h'
    exact hq

theorem of_error {failure : ModelError} (h : x m = .error failure base) :
    Atomic base m x Q where
  error he := by
    rw [h] at he
    cases he
    rfl
  post h' := by
    rw [h] at h'
    cases h'

theorem pure {a : α} (h : Q a m) : Atomic base m (pure a) Q := of_ok rfl h

theorem throw (failure : ModelError) : Atomic m m (throw failure : ModelM α) Q := of_error rfl

theorem bind {f : α → ModelM β} (hx : Atomic base m x Q)
    (hf : ∀ a m', Q a m' → Atomic base m' (f a) R) : Atomic base m (x >>= f) R := by
  cases h : x m with
  | ok a m' =>
    have hb : (x >>= f) m = f a m' := by rw [ModelM.bind_apply, h]
    have hrest := hf a m' (hx.post h)
    exact ⟨fun he => hrest.error (hb ▸ he), fun ha => hrest.post (hb ▸ ha)⟩
  | error failure m' =>
    have hb : (x >>= f) m = .error failure m' := by rw [ModelM.bind_apply, h]
    obtain rfl := hx.error h
    exact of_error hb

theorem get_bind {f : Model → ModelM β} (h : Atomic base m (f m) R) :
    Atomic base m (get >>= f) R :=
  ⟨fun he => h.error he, fun ha => h.post ha⟩

theorem throw_bind (failure : ModelError) (f : α → ModelM β) :
    Atomic m m ((MonadExcept.throw failure : ModelM α) >>= f) R :=
  of_error rfl

theorem set {m' : Model} {Q : PUnit → Model → Prop} (hq : Q ⟨⟩ m') :
    Atomic base m (set m') Q := of_ok rfl hq

theorem modify {f : Model → Model} {Q : PUnit → Model → Prop} (hq : Q ⟨⟩ (f m)) :
    Atomic base m (modify f) Q := of_ok rfl hq

theorem ofExcept_bind {e : Except ModelError α} {f : α → ModelM β}
    (h : ∀ a, e = .ok a → Atomic m m (f a) R) : Atomic m m (ModelM.ofExcept e >>= f) R := by
  cases e with
  | ok a => exact h a rfl
  | error failure => exact throw_bind failure f

end Atomic

variable {scope id : TypeId} {name : String}

theorem atomic_requireContainer (id : TypeId) (what : String) :
    Atomic m m (requireContainer id what) fun _ m' => m = m' ∧ (m.node id).isContainer = true := by
  unfold requireContainer
  apply Atomic.get_bind
  split
  · next h => exact .pure ⟨rfl, h⟩
  · exact .throw _

theorem atomic_requireFree (scope : TypeId) (name : String) (id : TypeId) :
    Atomic m m (requireFree scope name id) fun _ m' => m = m' := by
  unfold requireFree
  apply Atomic.get_bind
  split
  · exact .throw _
  · exact .pure rfl

theorem atomic_memberScope (scope : TypeId) (path : String) (accept : TypeNode → Bool) :
    Atomic m m (memberScope scope path accept) fun _ m' => m = m' := by
  unfold memberScope
  apply Atomic.get_bind
  split
  · exact .pure rfl
  · split
    · exact .pure rfl
    · exact .throw _

theorem atomic_detach (id : TypeId) :
    Atomic m m (detach id) fun _ m' => ∃ owner, m.Member id owner ∧ m' = m.released owner id := by
  by_cases h : ∃ owner, m.Member id owner
  · obtain ⟨owner, hm⟩ := h
    exact .of_ok (detach_eq hm.1 hm.2) ⟨owner, hm, rfl⟩
  · obtain ⟨failure, he⟩ := detach_eq_error fun owner hm => h ⟨owner, hm⟩
    exact .of_error he

/-- Linking into a scope with members cannot fail. -/
theorem atomic_attach (hc : (m.node scope).isContainer = true) :
    Atomic base m (attach scope id) fun _ _ => True := .of_ok (attach_eq hc) trivial

theorem atomic_relink (h : m.owner? id = some scope ∨ (m.node scope).isContainer = true) :
    Atomic m m (do
      requireFree scope name id
      detach id
      modify fun m => m.modifyNode id (·.mapEntity (·.setName name))
      attach scope id) fun _ _ => True := by
  refine (atomic_requireFree scope name id).bind ?_
  rintro - _ rfl
  refine (atomic_detach id).bind ?_
  rintro - _ ⟨owner, hm, rfl⟩
  have hc : (m.node scope).isContainer = true := by
    rcases h with ho | hc
    · rw [Owned.unique ho hm.1]
      exact hm.2
    · exact hc
  refine Atomic.bind (.modify (Q := fun _ m' => m' = (m.released owner id).named id name) rfl) ?_
  rintro - _ rfl
  apply atomic_attach
  simpa [named] using hc

theorem atomic_moveType (id scope : TypeId) :
    Atomic m m (moveType id scope) fun _ _ => True := by
  unfold moveType
  refine (atomic_requireContainer scope _).bind ?_
  rintro - _ ⟨rfl, hc⟩
  apply Atomic.get_bind
  dsimp only
  split
  · exact .throw_bind _ _
  · refine (atomic_requireFree scope _ id).bind ?_
    rintro - _ rfl
    refine (atomic_detach id).bind ?_
    rintro - _ ⟨owner, -, rfl⟩
    apply atomic_attach
    simpa using hc

end ApiModel.Model
