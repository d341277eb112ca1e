import ApiModel.Proofs.Consulting

/-!
The life of a hook. A hook is taken out of the model while it runs, and put back afterwards where
the model has none. So lookups in its run ask only the hooks that were installed in the run, and
what the run has installed stays; but where a run ends without a hook, it makes no difference
whether it never had one or has removed it.
-/

namespace ApiModel

/-- The hook that is due behind a step. A lookup changes it by the scripts that it runs, and is
known to have done so if there is a hook on one side of it. -/
def HookStep.due (current : Option Hook) : HookStep → Option Hook
  | lookup before after =>
    if before.hook.isNone && after.hook.isNone then current else after.hook
  | install hook => some hook
  | remove => none

namespace Model

variable {Q : Hook → Prop} {m m' : Model} {hook : Hook} {due : Option Hook}
  {lookup : TypeId → String → Search → ModelM TypeRef}

/-- The model has the hook that is due, unless this is one that waits to be put back. -/
def Awaits (hook : Hook) (due : Option Hook) (m : Model) : Prop :=
  m.hook = due ∨ m.hook = none ∧ due = some hook

theorem Awaits.or_eq (h : m.Awaits hook due) : m.hook.or (some hook) = due.or (some hook) := by
  obtain rfl | ⟨hnone, rfl⟩ := h
  · rfl
  · rw [hnone]
    rfl

theorem Awaits.looked (h : m.Awaits hook due) (m' : Model) :
    m'.Awaits hook ((HookStep.lookup m m').due due) := by
  rw [HookStep.due]
  split
  · next hnone =>
    rw [Bool.and_eq_true, Option.isNone_iff_eq_none, Option.isNone_iff_eq_none] at hnone
    obtain h | ⟨-, h⟩ := h
    · exact .inl (hnone.2.trans (hnone.1.symm.trans h))
    · exact .inr ⟨hnone.2, h⟩
  · exact .inl rfl

/-- Behind a run the model has the hook that is due, with the waiting one put back. -/
theorem Awaits.run {script : Script} (h : m.Awaits hook due) :
    (script.run lookup m).2.hook.or (some hook) =
      ((script.hookSteps lookup m).foldl HookStep.due due).or (some hook) := by
  induction script generalizing m due with
  | done result => exact h.or_eq
  | nameOf id next ih => exact ih _ h
  | signatureOf type next ih => exact ih _ h
  | lookup scope name search next ih =>
    rw [Script.run_lookup, Script.hookSteps_lookup]
    exact ih _ (h.looked _)
  | declare scope kind name next ih =>
    have hsame := Untouched.coversWrites.declare scope kind name m
    rw [Script.run_declare, Script.hookSteps_declare]
    rw [Awaits, ← hsame.hook] at h
    exact ih _ h
  | addOperation scope op next ih =>
    have hsame := Untouched.coversWrites.addOperation scope op m
    rw [Script.run_addOperation, Script.hookSteps_addOperation]
    rw [Awaits, ← hsame.hook] at h
    exact ih _ h
  | installHook label answer next _ ih => exact ih (.inl rfl)
  | removeHook next ih => exact ih (.inl rfl)

/-- The model in which a hook runs: it is out, and the question is on record. -/
def asking (m : Model) (hook : Hook) (scope : TypeId) (name : String) : Model :=
  { m with hook := none, journal := m.journal ++ [⟨hook.label, m.fullName scope, name⟩] }

theorem hook_consultHook (hhook : m.hook = some hook) (run : ScriptRunner) (scope : TypeId)
    (name : String) : ((consultHook run scope name).after m).hook =
      (run (hook.answer scope name) (m.asking hook scope name)).2.hook.or (some hook) := by
  rw [ModelM.after, consultHook, ModelM.bind_apply, ModelM.get_apply, asking]
  simp only [hhook]
  generalize run (hook.answer scope name) _ = result
  obtain ⟨found | failure, after⟩ := result <;> rfl

/-- Lookups in the run of a hook ask only hooks that it, the templates or these install. Afterwards
the model has the hook that the steps of the run leave, but the one that ran is put back where they
leave none, so that it has the hook that is due exactly if the run did not remove the last one.
Later lookups ask only hooks that come up then. -/
theorem hook_lifecycle (hhook : m.hook = some hook) (depth : Nat) (scope : TypeId)
    (name : String) :
    let steps := (hook.answer scope name).hookSteps (lookupTypeTo depth) (m.asking hook scope name)
    let due := steps.foldl HookStep.due (some hook)
    let after := (consultHook (Script.run (lookupTypeTo depth)) scope name).after m
    (∀ Q, hook.InstallsOnly Q → m.TemplatesInstallOnly Q → ∀ step ∈ steps, step.AsksWithin Q) ∧
    after.hook = due.or (some hook) ∧ (after.hook = due ↔ due ≠ none) ∧
    ∀ Q later, HooksWithin Q later → ∀ scope query search,
      AsksWithin Q later ((lookupTypeTo depth scope query search).after later) := by
  intro steps due after
  have hleft : after.hook = due.or (some hook) := by
    have hwaits : (m.asking hook scope name).Awaits hook (some hook) := .inr ⟨rfl, rfl⟩
    exact (hook_consultHook hhook _ scope name).trans hwaits.run
  refine ⟨fun Q hinstalls htemplates => ?_, hleft, ?_, fun Q later hlater scope query search =>
    asksWithin_lookupTypeTo depth scope query search _ hlater⟩
  · have hwithin : (m.asking hook scope name).HooksWithin Q := ⟨nofun, htemplates⟩
    exact (asksWithin_run (asksWithin_lookupTypeTo depth) (hinstalls scope name) hwithin).2
  · rw [hleft]
    cases due with
    | none => simp
    | some due => simp

def replacingHook : Hook where
  label := "replacing"
  answer _ _ :=
    .lookup .root "Other" .owners fun _ =>
      .installHook "next" (fun _ _ => .finish) <| .lookup .root "Other" .owners fun _ => .finish

def removingHook : Hook where
  label := "removing"
  answer _ _ := .removeHook .finish

theorem reachable_bareWithHook (hook : Hook) : Reachable .free (bare.afterAll [.setHook hook]) :=
  reachable_bare.step (.setHook hook) fun _ _ => Script.within_free _

theorem hook_lifecycle_of_replacing : ∃ m, Reachable .free m ∧ m.hook = some replacingHook ∧
    (∀ step ∈ (replacingHook.answer .root "Missing").hookSteps (lookupTypeTo 1)
        (m.asking replacingHook .root "Missing"),
      step.AsksWithin fun other => other.label = "next") ∧
    ((consultHook (Script.run (lookupTypeTo 1)) .root "Missing").after m).hook.map Hook.label =
      some "next" := by
  have htemplates : ∀ node ∈ (bare.afterAll [.setHook replacingHook]).nodes.toList,
      node.isTemplate = false := by decide +kernel
  have hhook : (bare.afterAll [.setHook replacingHook]).hook = some replacingHook := rfl
  obtain ⟨hasks, -, hdue, -⟩ := hook_lifecycle hhook 1 .root "Missing"
  refine ⟨_, reachable_bareWithHook replacingHook, hhook, hasks _ ?_ ?_, ?_⟩
  · exact fun _ _ _ => ⟨rfl, fun _ _ => trivial, fun _ => trivial⟩
  · intro id specializer h
    have ht := isTemplate_of_specializer h
    rw [htemplates _ (node_mem_toList (knows_of_isTemplate ht))] at ht
    cases ht
  · rw [hdue.mpr (Option.ne_none_iff_isSome.mpr (by decide +kernel))]
    decide +kernel

/-- The hook that removes the hook is there again afterwards, and a second lookup asks it again. -/
theorem hook_asked_after_removal : ∃ m, Reachable .free m ∧ m.hook = some removingHook ∧
    ((removingHook.answer .root "Missing").hookSteps lookupType
      (m.asking removingHook .root "Missing")).foldl HookStep.due (some removingHook) = none ∧
    ((lookupType .root "Missing" .owners).after m).hook.map Hook.label = some "removing" ∧
    ((lookupType .root "Missing" .owners).after
        ((lookupType .root "Missing" .owners).after m)).journal =
      [⟨"removing", "r", "Missing"⟩, ⟨"removing", "r", "Missing"⟩] :=
  ⟨bare.afterAll [.setHook removingHook], reachable_bareWithHook removingHook, rfl, rfl,
    by decide +kernel, by decide +kernel⟩

end Model

end ApiModel
