import ApiModel.Proofs.Change

/-!
Programs that change a model, as runs of elementary changes. `Does` says what a program does from a
given model, whether it fails or not, and there is one rule for each way of building programs.
-/

namespace ApiModel

/-- The model in which a program ends, also by a failure. -/
def ModelM.after {α : Type} (x : ModelM α) (m : Model) : Model :=
  match x m with
  | .ok _ m' => m'
  | .error _ m' => m'

def ModelM.outcome {α : Type} (x : ModelM α) (m : Model) : Except ModelError α :=
  match x m with
  | .ok a _ => .ok a
  | .error failure _ => .error failure

namespace Model

variable {α β : Type} {p : Policy} {m : Model} {x : ModelM α} {Q Q' : α → Model → Prop}
  {R : β → Model → Prop}

/-- From the model, the program makes admitted changes only, and `post` holds if it succeeds. -/
structure Does (p : Policy) (m : Model) (x : ModelM α) (post : α → Model → Prop) : Prop where
  run : Run p m (x.after m)
  post : ∀ {a m'}, x m = .ok a m' → post a m'

namespace Does

theorem run_of_ok (h : Does p m x Q) {a : α} {m' : Model} (ha : x m = .ok a m') : Run p m m' := by
  have hr := h.run
  rwa [ModelM.after, ha] at hr

theorem run_of_error (h : Does p m x Q) {e : ModelError} {m' : Model} (he : x m = .error e m') :
    Run p m m' := by
  have hr := h.run
  rwa [ModelM.after, he] at hr

theorem of_ok {a : α} {m' : Model} (h : x m = .ok a m') (hr : Run p m m') (hq : Q a m') :
    Does p m x Q where
  run := by rwa [ModelM.after, h]
  post h' := by
    rw [h] at h'
    cases h'
    exact hq

theorem of_error {e : ModelError} {m' : Model} (h : x m = .error e m') (hr : Run p m m') :
    Does p m x Q where
  run := by rwa [ModelM.after, h]
  post h' := by
    rw [h] at h'
    cases h'

theorem mono (h : Does p m x Q) (hQ : ∀ a m', Run p m m' → Q a m' → Q' a m') : Does p m x Q' where
  run := h.run
  post ha := hQ _ _ (h.run_of_ok ha) (h.post ha)

theorem pure {a : α} (h : Q a m) : Does p m (pure a) Q := of_ok rfl .refl h

theorem throw (e : ModelError) : Does p m (throw e : ModelM α) Q := of_error rfl .refl

theorem bind_eq {f : α → ModelM β} (hx : Does p m x Q)
    (hf : ∀ a m', x m = .ok a m' → Q a m' → Does p m' (f a) R) : Does p m (x >>= f) R := by
  cases h : x m with
  | ok a m' =>
    have hb : (x >>= f) m = f a m' := by rw [ModelM.bind_apply, h]
    have hd := hf a m' h (hx.post h)
    refine ⟨?_, fun ha => hd.post (hb ▸ ha)⟩
    rw [ModelM.after, hb]
    exact (hx.run_of_ok h).trans hd.run
  | error e m' =>
    have hb : (x >>= f) m = .error e m' := by rw [ModelM.bind_apply, h]
    exact of_error hb (hx.run_of_error h)

theorem bind {f : α → ModelM β} (hx : Does p m x Q)
    (hf : ∀ a m', Run p m m' → Q a m' → Does p m' (f a) R) : Does p m (x >>= f) R :=
  hx.bind_eq fun a m' h hq => hf a m' (hx.run_of_ok h) hq

theorem get_bind {f : Model → ModelM β} (h : Does p m (f m) R) : Does p m (get >>= f) R := by
  have hget : Does p m (get : ModelM Model) fun a m' => a = m ∧ m' = m := of_ok rfl .refl ⟨rfl, rfl⟩
  refine hget.bind ?_
  rintro _ _ - ⟨rfl, rfl⟩
  exact h

theorem throw_bind (e : ModelError) (f : α → ModelM β) :
    Does p m ((MonadExcept.throw e : ModelM α) >>= f) R :=
  (throw (Q := fun _ _ => False) e).bind fun _ _ _ h => False.elim h

theorem set {m' : Model} {Q : PUnit → Model → Prop} (h : Change p m m') (hq : Q ⟨⟩ m') :
    Does p m (set m') Q := of_ok rfl (.single h) hq

theorem modify {f : Model → Model} {Q : PUnit → Model → Prop} (h : Change p m (f m))
    (hq : Q ⟨⟩ (f m)) : Does p m (modify f) Q := of_ok rfl (.single h) hq

theorem ofExcept_bind {e : Except ModelError α} {f : α → ModelM β}
    (h : ∀ a, e = .ok a → Does p m (f a) R) : Does p m (ModelM.ofExcept e >>= f) R := by
  cases e with
  | ok a => exact h a rfl
  | error e => exact throw_bind e f

theorem forM {γ : Type} {f : γ → ModelM PUnit} {xs : List γ} (hs : Sound p m)
    (hf : ∀ a ∈ xs, ∀ m, Sound p m → Does p m (f a) fun _ _ => True) :
    Does p m (xs.forM f) fun _ _ => True := by
  induction xs generalizing m with
  | nil => exact pure trivial
  | cons a xs ih =>
    refine (hf a List.mem_cons_self m hs).bind fun _ m' hr _ => ?_
    exact ih (hr.sound hs) fun b hb => hf b (List.mem_cons_of_mem a hb)

end Does

end Model

end ApiModel
