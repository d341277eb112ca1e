import ApiModel.Proofs.Reachable

/-!
Histories: the operations that a model is reached by, each with the model that it was done to, and
the courses of a history, which list all models that the elementary changes of its operations pass
through. What is said of the time at which something was made is said of every course.
-/

namespace ApiModel

namespace Model

variable {p : Policy} {m m' m'' a b : Model} {steps : List (Model × Action)}
  {models models' : List Model}

/-- The model is reached by these operations, each with the model that it was done to. -/
inductive History (p : Policy) : List (Model × Action) → Model → Prop
  | created {config : Config} {m : Model} (within : config.Within p)
      (new : create config = .ok m) : History p [] m
  | step {steps : List (Model × Action)} {m : Model} (before : History p steps m)
      (action : Action) (admissible : action.Admissible p m) :
      History p (steps ++ [(m, action)]) (action.run.after m)

theorem History.reachable (h : History p steps m) : Reachable p m := by
  induction h with
  | created within new => exact .created within new
  | step _ action admissible ih => exact ih.step action admissible

def stepsOf (m : Model) : List Action → List (Model × Action)
  | [] => []
  | action :: actions => (m, action) :: stepsOf (action.run.after m) actions

theorem snd_mem_of_mem_stepsOf {actions : List Action} {step : Model × Action}
    (h : step ∈ m.stepsOf actions) : step.2 ∈ actions := by
  induction actions generalizing m with
  | nil => cases h
  | cons action actions ih =>
    obtain rfl | h := List.mem_cons.mp h
    · exact List.mem_cons_self
    · exact List.mem_cons_of_mem action (ih h)

theorem History.afterAll (h : History p steps m) {actions : List Action}
    (ha : ∀ action ∈ actions, ∀ m, action.Admissible p m) :
    History p (steps ++ m.stepsOf actions) (m.afterAll actions) := by
  induction actions generalizing steps m with
  | nil =>
    rw [stepsOf, List.append_nil]
    exact h
  | cons action actions ih =>
    obtain ⟨hfirst, hrest⟩ := List.forall_mem_cons.mp ha
    have hstep := ih (h.step action (hfirst m)) hrest
    rwa [List.append_assoc] at hstep

theorem history_bare : History p [] bare := by
  have hw : bare.config.Within p := ⟨fun _ => by decide, nofun, nofun⟩
  exact .created hw (show create bare.config = .ok bare from rfl)

/-- Elementary changes lead from one model to another, through the listed models. -/
inductive Trail (p : Policy) (m : Model) : List Model → Model → Prop
  | refl : Trail p m [] m
  | tail {models : List Model} {m' m'' : Model} (before : Trail p m models m')
      (change : Change p m' m'') : Trail p m (models ++ [m']) m''

theorem Trail.run (h : Trail p m models m') : Run p m m' := by
  induction h with
  | refl => exact .refl
  | tail _ change ih => exact ih.tail change

theorem Run.exists_trail (h : Run p m m') : ∃ models, Trail p m models m' := by
  induction h with
  | refl => exact ⟨[], .refl⟩
  | tail _ change ih =>
    obtain ⟨models, trail⟩ := ih
    exact ⟨_, trail.tail change⟩

/-- The elementary changes that a history is made of, by the models that they pass through before
the last one. -/
inductive Course (p : Policy) : List (Model × Action) → List Model → Model → Prop
  | created {config : Config} {root m : Model} {models : List Model} (within : config.Within p)
      (alone : rootOnly config = .ok root) (new : create config = .ok m)
      (trail : Trail p root models m) : Course p [] models m
  | step {steps : List (Model × Action)} {models models' : List Model} {m : Model}
      (before : Course p steps models m) (action : Action) (admissible : action.Admissible p m)
      (trail : Trail p m models' (action.run.after m)) :
      Course p (steps ++ [(m, action)]) (models ++ models') (action.run.after m)

/-- The course passes from the one model right to the other. -/
def Passes (models : List Model) (m a b : Model) : Prop := [a, b] <:+: models ++ [m]

theorem Passes.step (h : Passes models m a b) (m' : Model) :
    Passes (models ++ [m]) m' a b :=
  h.trans (List.prefix_append _ _).isInfix

theorem passes_last (models : List Model) (m m' : Model) : Passes (models ++ [m]) m' m m' :=
  ⟨models, [], by simp⟩

theorem History.exists_course (h : History p steps m) : ∃ models, Course p steps models m := by
  induction h with
  | created within new =>
    obtain ⟨root, hroot, hrun⟩ := run_of_create within new
    obtain ⟨models, trail⟩ := hrun.exists_trail
    exact ⟨models, .created within hroot new trail⟩
  | step before action admissible ih =>
    obtain ⟨models, course⟩ := ih
    obtain ⟨models', trail⟩ := (does_action before.reachable.sound admissible).run.exists_trail
    exact ⟨_, course.step action admissible trail⟩

/-- What a root alone has and every elementary change keeps, looking back on the models before it,
holds along all courses. -/
theorem Course.induct {P : List Model → Model → Prop}
    (root : ∀ {config root}, config.Within p → rootOnly config = .ok root → P [] root)
    (change : ∀ {models m m'}, Sound p m → P models m → Change p m m' → P (models ++ [m]) m')
    (h : Course p steps models m) : P models m := by
  have htrail : ∀ {before m models m'}, Sound p m → P before m → Trail p m models m' →
      Sound p m' ∧ P (before ++ models) m' := by
    intro before m models m' hs hm trail
    induction trail with
    | refl => exact ⟨hs, by rwa [List.append_nil]⟩
    | tail _ hc ih => exact ⟨hc.sound ih.1, List.append_assoc .. ▸ change ih.1 ih.2 hc⟩
  suffices hall : Sound p m ∧ P models m from hall.2
  induction h with
  | created within alone _ trail =>
    exact htrail (sound_rootOnly alone) (root within alone) trail
  | step _ _ _ trail ih => exact htrail ih.1 ih.2 trail

end Model

end ApiModel
