import ApiModel.Proofs.Making
import ApiModel.Proofs.Writing

/-!
The hooks that a lookup may ask. The model holds at most one, and lookups run scripts that install
others; whatever they do, no lookup asks a hook that neither was in the model nor is installed by a
script of one that was, or of a template.
-/

namespace ApiModel

namespace Model

variable {α β : Type} {m m' m'' : Model} {scope id : TypeId} {node : TypeNode}

/-- The second model has the hook of the first one and its journal, the same programs in its
templates, and attributes of the same names. -/
structure Untouched (m m' : Model) : Prop where
  hook : m'.hook = m.hook
  journal : m'.journal = m.journal
  specializer : ∀ id, (m'.node id).specializer? = (m.node id).specializer?
  attributes : ∀ s, (m'.members s).attributes.keys = (m.members s).attributes.keys

namespace Untouched

theorem refl (m : Model) : Untouched m m := ⟨rfl, rfl, fun _ => rfl, fun _ => rfl⟩

theorem trans (h : Untouched m m') (h' : Untouched m' m'') : Untouched m m'' where
  hook := h'.hook.trans h.hook
  journal := h'.journal.trans h.journal
  specializer id := (h'.specializer id).trans (h.specializer id)
  attributes s := (h'.attributes s).trans (h.attributes s)

theorem modifyNode {f : TypeNode → TypeNode}
    (hs : (f (m.node id)).specializer? = (m.node id).specializer?)
    (ha : ((f (m.node id)).scope?.getD {}).attributes.keys =
      ((m.node id).scope?.getD {}).attributes.keys) : Untouched m (m.modifyNode id f) where
  hook := rfl
  journal := rfl
  specializer := rel_modifyNode (R := fun a b => b.specializer? = a.specializer?) (fun _ => rfl) hs
  attributes := rel_modifyNode (R := fun a b =>
    (b.scope?.getD {}).attributes.keys = (a.scope?.getD {}).attributes.keys) (fun _ => rfl) ha

theorem modifyScope {f : Scope → Scope} (hf : ∀ a, (f a).attributes.keys = a.attributes.keys) :
    Untouched m (m.modifyNode id (·.mapScope f)) := by
  refine modifyNode (TypeNode.specializer?_mapScope f _) ?_
  rw [TypeNode.scope?_mapScope]
  cases (m.node id).scope? with
  | none => rfl
  | some a => exact hf a

theorem modifyEntity (f : Entity → Entity) : Untouched m (m.modifyNode id (·.mapEntity f)) :=
  modifyNode rfl rfl

theorem allocated (hn : node.IsBlank) (hs : node.specializer? = none) :
    Untouched m (m.allocated node) where
  hook := rfl
  journal := rfl
  specializer j := by
    by_cases hj : j = m.next
    · rw [hj, node_allocated_next, node_of_not_knows not_knows_next, hs]
      rfl
    · rw [node_allocated_of_ne hj]
  attributes s := by rw [members_allocated_of_isBlank hn]

theorem repathed (h : m.Repathed m') : Untouched m m' where
  hook := h.hook_eq
  journal := h.journal_eq
  specializer id := (h.node id).specializer?_eq
  attributes s := by
    have hkeys := (h.node s).map_scope?_eq (g := fun a => a.attributes.keys) fun path a => by
      simp [Scope.setMemberPaths]
    rw [members, members, scope?, scope?]
    cases hs : (m.node s).scope? <;> cases hs' : (m'.node s).scope? <;> simp_all

theorem coversWrites : CoversWrites TypeNode.IsSimple Untouched where
  refl := refl
  trans := trans
  declared := PlainKind.isSimple_of_ofName
  ownerWritten _ _ _ _ := modifyEntity _
  entered _ _ _ := modifyScope fun _ => by
    unfold Scope.enterType
    split <;> rfl
  removed _ _ _ _ := modifyScope fun _ => rfl
  repathed := repathed
  allocated _ _ hn := allocated hn.toIsBlank hn.specializer
  adopted m id node _ := by
    have hadopt : (m.node id).Annotated .free ((m.node id).adopt node) :=
      .adopt (fun _ _ hp => absurd hp not_false) _
    exact modifyNode hadopt.specializer (by rw [hadopt.scope])
  operationAdded _ _ _ := modifyScope fun _ => rfl

end Untouched

end Model

/-- A step of a script that may concern hooks: a lookup, with the models before and behind it, or a
change of the hook. -/
inductive HookStep where
  | lookup (before after : Model)
  | install (hook : Hook)
  | remove

/-- The steps of a run of the script that may concern hooks, in order. -/
def Script.hookSteps (lookupType : TypeId → String → Search → ModelM TypeRef) :
    Script → Model → List HookStep
  | done _, _ => []
  | nameOf id next, m => hookSteps lookupType (next (m.node id).name) m
  | signatureOf ty next, m => hookSteps lookupType (next (m.signature ty)) m
  | lookup scope name search next, m =>
    match lookupType scope name search m with
    | .ok ty m' => .lookup m m' :: hookSteps lookupType (next (.ok ty)) m'
    | .error failure m' => .lookup m m' :: hookSteps lookupType (next (.error failure)) m'
  | declare scope kind name next, m =>
    match (ModelM.ofExcept (TypeNode.ofName name kind.toTypeKind) >>= Model.addType scope) m with
    | .ok id m => hookSteps lookupType (next (.ok id)) m
    | .error failure m => hookSteps lookupType (next (.error failure)) m
  | addOperation scope op next, m =>
    match Model.addOperation scope op m with
    | .ok op m => hookSteps lookupType (next (.ok op)) m
    | .error failure m => hookSteps lookupType (next (.error failure)) m
  | installHook label answer next, m =>
    .install ⟨label, answer⟩ :: hookSteps lookupType next { m with hook := some ⟨label, answer⟩ }
  | removeHook next, m => .remove :: hookSteps lookupType next { m with hook := none }

namespace Script

variable {lookupType : TypeId → String → Search → ModelM TypeRef} {m : Model} {scope : TypeId}
  {name : String}

theorem hookSteps_lookup {search : Search} {next : Except ModelError TypeRef → Script} :
    (lookup scope name search next).hookSteps lookupType m =
      let m' := (lookupType scope name search).after m
      .lookup m m' :: (next ((lookupType scope name search).outcome m)).hookSteps lookupType m' := by
  rw [hookSteps]
  dsimp only
  rw [ModelM.outcome, ModelM.after]
  cases lookupType scope name search m <;> rfl

theorem hookSteps_declare {kind : PlainKind} {next : Except ModelError TypeId → Script} :
    (declare scope kind name next).hookSteps lookupType m =
      let declared := ModelM.ofExcept (TypeNode.ofName name kind.toTypeKind) >>= Model.addType scope
      (next (declared.outcome m)).hookSteps lookupType (declared.after m) := by
  rw [hookSteps]
  dsimp only
  rw [ModelM.outcome, ModelM.after]
  cases (ModelM.ofExcept (TypeNode.ofName name kind.toTypeKind) >>= Model.addType scope) m <;> rfl

theorem hookSteps_addOperation {op : Operation} {next : Except ModelError Operation → Script} :
    (addOperation scope op next).hookSteps lookupType m =
      (next ((Model.addOperation scope op).outcome m)).hookSteps lookupType
        ((Model.addOperation scope op).after m) := by
  rw [hookSteps, ModelM.outcome, ModelM.after]
  cases Model.addOperation scope op m <;> rfl

end Script

def Script.InstallsOnly (Q : Hook → Prop) : Script → Prop
  | done _ => True
  | nameOf _ next => ∀ name, (next name).InstallsOnly Q
  | signatureOf _ next => ∀ text, (next text).InstallsOnly Q
  | lookup _ _ _ next => ∀ result, (next result).InstallsOnly Q
  | declare _ _ _ next => ∀ result, (next result).InstallsOnly Q
  | addOperation _ _ next => ∀ result, (next result).InstallsOnly Q
  | installHook label answer next =>
    Q ⟨label, answer⟩ ∧ (∀ scope name, (answer scope name).InstallsOnly Q) ∧ next.InstallsOnly Q
  | removeHook next => next.InstallsOnly Q

theorem Script.installsOnly_of_forall {Q : Hook → Prop} (hq : ∀ hook, Q hook) (script : Script) :
    script.InstallsOnly Q := by
  induction script with
  | done _ => trivial
  | nameOf _ _ ih | signatureOf _ _ ih => exact ih
  | lookup _ _ _ _ ih | declare _ _ _ _ ih | addOperation _ _ _ ih => exact ih
  | installHook label answer next ihAnswer ih => exact ⟨hq _, ihAnswer, ih⟩
  | removeHook _ ih => exact ih

def Hook.InstallsOnly (Q : Hook → Prop) (hook : Hook) : Prop :=
  ∀ scope name, (hook.answer scope name).InstallsOnly Q

def Specializer.InstallsOnly (Q : Hook → Prop) (specializer : Specializer) : Prop :=
  ∀ id arguments, (specializer.fill id arguments).InstallsOnly Q

namespace Model

variable {α β : Type} {Q : Hook → Prop} {m m' m'' : Model} {run : ScriptRunner}

def TemplatesInstallOnly (Q : Hook → Prop) (m : Model) : Prop :=
  ∀ id specializer, (m.node id).specializer? = some specializer → specializer.InstallsOnly Q

/-- The hook of the model is in `Q`, and so are all that it and the templates install. -/
structure HooksWithin (Q : Hook → Prop) (m : Model) : Prop where
  hook : ∀ hook, m.hook = some hook → Q hook ∧ hook.InstallsOnly Q
  templates : m.TemplatesInstallOnly Q

theorem hooksWithin_of_forall (hq : ∀ hook, Q hook) (m : Model) : m.HooksWithin Q where
  hook _ _ := ⟨hq _, fun _ _ => Script.installsOnly_of_forall hq _⟩
  templates _ _ _ _ _ := Script.installsOnly_of_forall hq _

/-- From the first model to the second only hooks in `Q` are asked, and these are left. No attribute
is added. -/
structure AsksWithin (Q : Hook → Prop) (m m' : Model) : Prop where
  within : m'.HooksWithin Q
  asked : ∃ asked, m'.journal = m.journal ++ asked ∧
    ∀ entry ∈ asked, ∃ hook, Q hook ∧ entry.hook = hook.label
  attributes : ∀ s, (m'.members s).attributes.keys = (m.members s).attributes.keys

namespace AsksWithin

theorem refl (h : m.HooksWithin Q) : AsksWithin Q m m :=
  ⟨h, ⟨[], (List.append_nil _).symm, List.forall_mem_nil _⟩, fun _ => rfl⟩

theorem trans (h : AsksWithin Q m m') (h' : AsksWithin Q m' m'') : AsksWithin Q m m'' where
  within := h'.within
  asked := by
    obtain ⟨asked, hj, hasked⟩ := h.asked
    obtain ⟨asked', hj', hasked'⟩ := h'.asked
    exact ⟨asked ++ asked', by rw [hj', hj, List.append_assoc],
      List.forall_mem_append.mpr ⟨hasked, hasked'⟩⟩
  attributes s := (h'.attributes s).trans (h.attributes s)

theorem of_untouched (h : m.HooksWithin Q) (hu : Untouched m m') : AsksWithin Q m m' where
  within := ⟨fun hook hhook => h.hook hook (hu.hook ▸ hhook),
    fun id specializer hs => h.templates id specializer (hu.specializer id ▸ hs)⟩
  asked := ⟨[], by rw [hu.journal, List.append_nil], List.forall_mem_nil _⟩
  attributes := hu.attributes

theorem withHook {hook : Option Hook} (h : m.HooksWithin Q)
    (hhook : ∀ h, hook = some h → Q h ∧ h.InstallsOnly Q) : AsksWithin Q m { m with hook } where
  within := ⟨hhook, h.templates⟩
  asked := ⟨[], (List.append_nil _).symm, List.forall_mem_nil _⟩
  attributes _ := rfl

theorem bind {x : ModelM α} {f : α → ModelM β} (hx : AsksWithin Q m (x.after m))
    (hf : ∀ a m', x m = .ok a m' → AsksWithin Q m m' → AsksWithin Q m' ((f a).after m')) :
    AsksWithin Q m ((x >>= f).after m) :=
  ModelM.rel_after_bind trans hx fun a m' he => hf a m' he (by rwa [ModelM.after, he] at hx)

end AsksWithin

end Model

def HookStep.AsksWithin (Q : Hook → Prop) : HookStep → Prop
  | .lookup before after => Model.AsksWithin Q before after
  | .install _ => True
  | .remove => True

namespace Model

variable {α β : Type} {Q : Hook → Prop} {m m' m'' : Model} {run : ScriptRunner}

/-- Scripts that are run in that way and install hooks in `Q` only, ask these only. -/
def ScriptsAskWithin (Q : Hook → Prop) (run : ScriptRunner) : Prop :=
  ∀ script m, script.InstallsOnly Q → m.HooksWithin Q → AsksWithin Q m (run script m).2

theorem scriptsAskWithin_refuseScript : ScriptsAskWithin Q refuseScript := fun _ _ _ h => .refl h

/-- In the run of a script, and in each lookup in it, only hooks in `Q` are asked if the script and
the model install no others. -/
theorem asksWithin_run {lookup : TypeId → String → Search → ModelM TypeRef}
    (hl : ∀ scope name search m, m.HooksWithin Q →
      AsksWithin Q m ((lookup scope name search).after m))
    {script : Script} (hs : script.InstallsOnly Q) (hm : m.HooksWithin Q) :
    AsksWithin Q m (script.run lookup m).2 ∧
      ∀ step ∈ script.hookSteps lookup m, step.AsksWithin Q := by
  induction script generalizing m with
  | done result => exact ⟨.refl hm, List.forall_mem_nil _⟩
  | nameOf id next ih => exact ih _ (hs _) hm
  | signatureOf type next ih => exact ih _ (hs _) hm
  | lookup scope name search next ih =>
    have hstep := hl scope name search m hm
    rw [Script.run_lookup, Script.hookSteps_lookup]
    exact (ih _ (hs _) hstep.within).imp hstep.trans fun hsteps =>
      List.forall_mem_cons.mpr ⟨hstep, hsteps⟩
  | declare scope kind name next ih =>
    have hstep := AsksWithin.of_untouched hm (Untouched.coversWrites.declare scope kind name m)
    rw [Script.run_declare, Script.hookSteps_declare]
    exact (ih _ (hs _) hstep.within).imp_left hstep.trans
  | addOperation scope op next ih =>
    have hstep := AsksWithin.of_untouched hm (Untouched.coversWrites.addOperation scope op m)
    rw [Script.run_addOperation, Script.hookSteps_addOperation]
    exact (ih _ (hs _) hstep.within).imp_left hstep.trans
  | installHook label answer next _ ih =>
    have hstep : AsksWithin Q m { m with hook := some ⟨label, answer⟩ } :=
      .withHook hm fun hook he => Option.some.inj he ▸ ⟨hs.1, hs.2.1⟩
    exact (ih hs.2.2 hstep.within).imp hstep.trans fun hsteps =>
      List.forall_mem_cons.mpr ⟨trivial, hsteps⟩
  | removeHook next ih =>
    have hstep : AsksWithin Q m { m with hook := none } :=
      .withHook hm fun _ he => absurd he.symm (Option.some_ne_none _)
    exact (ih hs hstep.within).imp hstep.trans fun hsteps =>
      List.forall_mem_cons.mpr ⟨trivial, hsteps⟩

theorem covers_asksWithin (hrun : ScriptsAskWithin Q run) :
    Covers run fun m m' => m.HooksWithin Q → AsksWithin Q m m' where
  refl _ := .refl
  trans h h' hm := (h hm).trans (h' (h hm).within)
  asked m scope name hm := by
    unfold consultHook
    refine .bind (.refl hm) fun _ _ hget _ => ?_
    cases hget
    split
    · exact .refl hm
    · next hook hhook =>
      obtain ⟨hq, hinstalls⟩ := hm.hook hook hhook
      set entry : Consultation := ⟨hook.label, m.fullName scope, name⟩
      have hask : AsksWithin Q m { m with hook := none, journal := m.journal ++ [entry] } := {
        within := ⟨nofun, hm.templates⟩
        asked := ⟨[entry], rfl, fun e he => ⟨hook, hq, by rw [List.mem_singleton.mp he]⟩⟩
        attributes := fun _ => rfl }
      have hrun := hrun (hook.answer scope name) _ (hinstalls scope name) hask.within
      dsimp only
      generalize run (hook.answer scope name) _ = result at hrun
      obtain ⟨answer, after⟩ := result
      have hback : AsksWithin Q after { after with hook := after.hook.or (some hook) } := by
        refine .withHook hrun.within fun h he => ?_
        obtain he | ⟨-, he⟩ := Option.or_eq_some_iff.mp he
        · exact hrun.within.hook h he
        · exact Option.some.inj he ▸ ⟨hq, hinstalls⟩
      refine .bind ((hask.trans hrun).trans hback) fun _ m' _ h => ?_
      cases answer <;> exact .refl h.within
  made {m template specializer} arguments hspecializer _ hm := by
    unfold makeSpecialization
    refine .bind (.refl hm) fun _ _ hget _ => ?_
    cases hget
    have hadd := AsksWithin.of_untouched hm <| Untouched.coversWrites.addTypeWith
      (TypeNode.isSimple_specialized (m.specializationName template arguments)
        { template, arguments }) (m.specializationScope template) true m
    refine .bind hadd fun id m₁ _ hadd => ?_
    refine .bind (.refl hadd.within) fun _ _ hget _ => ?_
    cases hget
    have hfill := hrun (specializer.fill id arguments) m₁
      (hm.templates template specializer hspecializer id arguments) hadd.within
    dsimp only
    generalize run (specializer.fill id arguments) m₁ = result at hfill
    obtain ⟨answer, after⟩ := result
    refine .bind (x := set after) hfill fun _ _ hset h => ?_
    cases hset
    cases answer with
    | ok found => exact .refl h.within
    | error failure =>
      exact .bind (.of_untouched h.within (Untouched.coversWrites.detach id after))
        fun _ m' _ h' => .refl h'.within

theorem asksWithin_lookupTypeTo (depth : Nat) (scope : TypeId) (query : String) (search : Search)
    (m : Model) (hm : m.HooksWithin Q) :
    AsksWithin Q m ((lookupTypeTo depth scope query search).after m) := by
  induction depth generalizing scope query search m with
  | zero =>
    have hcovers := covers_asksWithin (Q := Q) scriptsAskWithin_refuseScript
    exact hcovers.lookupTypeBelow _ scope query search m hm
  | succ depth ih =>
    have hrun : ScriptsAskWithin Q (Script.run (lookupTypeTo depth)) :=
      fun script m hs hm => (asksWithin_run ih hs hm).1
    exact (covers_asksWithin hrun).lookupTypeBelow _ scope query search m hm

end Model

end ApiModel
