import ApiModel.Proofs.Adding
import ApiModel.Proofs.Rebinding
import ApiModel.Proofs.Repeating

/-!
The classes that a lookup makes. Without a hook, all that a lookup does to a model is to make
classes of templates, one inside of another. Each is filled by a script and taken out of its scope
again if the script fails, while the classes that were completed on the way stay.
-/

namespace ApiModel

/-- Whatever it learns, the script only reads, looks types up, and adds operations to the class that
it fills. -/
def Script.Fills (id : TypeId) : Script → Prop
  | done _ => True
  | nameOf _ next => ∀ name, (next name).Fills id
  | signatureOf _ next => ∀ text, (next text).Fills id
  | lookup _ _ _ next => ∀ result, (next result).Fills id
  | addOperation scope op next =>
    (scope = id ∧ op.entity.scopePath = "") ∧ ∀ result, (next result).Fills id
  | declare .. | installHook .. | removeHook .. => False

namespace StdTypes

variable {id : TypeId}

theorem fills_proceed {α : Type} {next : α → Script} (h : ∀ a, (next a).Fills id)
    (result : Except ModelError α) : (Script.proceed next result).Fills id := by
  cases result with
  | ok a => exact h a
  | error failure => trivial

theorem fills_builtin {name : String} {next : TypeRef → Script} (h : ∀ ty, (next ty).Fills id) :
    (Script.builtin name next).Fills id := fills_proceed h

theorem fills_finish : Script.finish.Fills id := trivial

theorem fills_addOperations {next : Script} (hn : next.Fills id) {ops : List Operation}
    (ho : ∀ op ∈ ops, op.entity.scopePath = "") : (Script.addOperations id ops next).Fills id := by
  induction ops with
  | nil => exact hn
  | cons op ops ih =>
    obtain ⟨hop, hops⟩ := List.forall_mem_cons.mp ho
    exact ⟨⟨rfl, hop⟩, fills_proceed fun _ => ih hops⟩

theorem fills_vector (arguments : List TypeRef) : (vector.fill id arguments).Fills id := by
  rcases arguments with _ | ⟨value, _ | _⟩
  · trivial
  · refine fills_builtin fun sizeType => fills_builtin fun void => fills_builtin fun bool =>
      fun valueText className => fills_addOperations fills_finish ?_
    simp [constructors, constructor, vectorMethods, method, swap]
  · trivial

theorem fills_map (arguments : List TypeRef) : (map.fill id arguments).Fills id := by
  rcases arguments with _ | ⟨key, _ | ⟨value, _⟩⟩
  · trivial
  · trivial
  · refine fills_builtin fun sizeType => fills_builtin fun void => fills_builtin fun bool =>
      fun keyText => fills_builtin fun keys => fun className =>
        fills_addOperations fills_finish ?_
    simp [constructors, constructor, mapMethods, method]

end StdTypes

namespace Model

variable {tame : Prop} {p : Policy} {α β : Type} {run : ScriptRunner} {m m' m'' : Model}
  {id scope : TypeId} {filled filled' : Option TypeId} {query : String} {search : Search}

/-- The relation holds between the models before and behind the steps that lookups consist of: the
making of a class, and the question to the hook. -/
structure Covers (run : ScriptRunner) (R : Model → Model → Prop) : Prop where
  refl : ∀ m, R m m
  trans : ∀ {m m' m''}, R m m' → R m' m'' → R m m''
  asked : ∀ m scope name, R m ((consultHook run scope name).after m)
  made : ∀ {m template specializer} (arguments : List TypeRef),
    (m.node template).specializer? = some specializer →
      m.madeSpecialization? template arguments = none →
        R m ((makeSpecialization run template specializer arguments).after m)

namespace Covers

variable {R : Model → Model → Prop}

theorem bind (h : Covers run R) {x : ModelM α} {f : α → ModelM β} (hx : R m (x.after m))
    (hf : ∀ a m', x m = .ok a m' → R m' ((f a).after m')) : R m ((x >>= f).after m) :=
  ModelM.rel_after_bind h.trans hx hf

theorem mapM (h : Covers run R) {f : α → ModelM β} {xs : List α}
    (hf : ∀ a ∈ xs, ∀ m, R m ((f a).after m)) (m : Model) : R m ((xs.mapM f).after m) := by
  induction xs generalizing m with
  | nil => exact h.refl m
  | cons a xs ih =>
    rw [List.mapM_cons]
    obtain ⟨hfirst, hrest⟩ := List.forall_mem_cons.mp hf
    exact h.bind (hfirst m) fun _ m' _ => h.bind (ih hrest m') fun _ m'' _ => h.refl m''

theorem instantiate (h : Covers run R) {lookupArgument : String → ModelM TypeRef}
    (hl : ∀ text m, R m ((lookupArgument text).after m)) (scope : TypeId) (base : String)
    (arguments : List String) (search : Search) (m : Model) :
    R m ((Model.instantiate run lookupArgument scope base arguments search).after m) := by
  unfold Model.instantiate
  refine h.bind (h.refl m) fun _ _ hget => ?_
  cases hget
  split
  · exact h.refl m
  · refine h.bind (h.mapM (fun text _ => hl text) m) fun types m' _ => ?_
    refine h.bind (h.refl m') fun _ _ hget => ?_
    cases hget
    split
    · exact h.refl m'
    · exact h.refl m'
    · next specializer hfree hspecializer =>
      exact h.bind (h.made types hspecializer hfree) fun _ m'' _ => h.refl m''

theorem resolveBelow (h : Covers run R) {lookupArgument : TypeId → String → Search → ModelM TypeRef}
    (hl : ∀ scope text search m, R m ((lookupArgument scope text search).after m)) (scope : TypeId)
    (search : Search) (bound : Nat) (name : String) (m : Model) :
    R m ((Model.resolveBelow run lookupArgument scope search bound name).after m) := by
  induction bound generalizing name m with
  | zero => exact h.refl m
  | succ bound ih =>
    unfold Model.resolveBelow
    refine h.bind (h.refl m) fun _ _ hget => ?_
    cases hget
    split
    · exact h.refl m
    split
    · exact h.instantiate (fun text m => hl scope text search m) scope _ _ search m
    · refine h.bind (ih _ m) fun outer m' _ => ?_
      split
      · exact h.bind (h.refl m') fun _ _ hget => by cases hget; exact h.refl m'
      · exact h.refl m'
    · exact h.refl m

theorem concludeLookup (h : Covers run R) (scope : TypeId) (normal name : String)
    (markers : List Char) (resolved : Option TypeRef) (m : Model) :
    R m ((Model.concludeLookup run scope normal name markers resolved).after m) := by
  unfold Model.concludeLookup
  cases resolved with
  | some found =>
    refine h.bind (h.refl m) fun _ m' hok => ?_
    cases hok
    refine h.bind (h.refl m) fun _ m' hok => ?_
    cases hok
    dsimp only
    split <;> exact h.refl m
  | none =>
    refine h.bind (h.asked m scope name) fun found m' _ => ?_
    cases found with
    | none => exact h.refl m'
    | some ty =>
      refine h.bind (h.refl m') fun _ m'' hok => ?_
      cases hok
      dsimp only
      split <;> exact h.refl m'

theorem lookupTypeBelow (h : Covers run R) (bound : Nat) (scope : TypeId) (query : String)
    (search : Search) (m : Model) :
    R m ((Model.lookupTypeBelow run bound scope query search).after m) := by
  induction bound generalizing scope query search m with
  | zero => exact h.refl m
  | succ bound ih =>
    unfold Model.lookupTypeBelow
    dsimp only
    split
    · exact h.refl m
    · refine h.bind ?_ fun parts m' _ => ?_
      · cases TypeQuery.split (Name.normalizeQuery query) <;> exact h.refl m
      · refine h.bind (h.resolveBelow ih scope search _ _ m') fun resolved m'' _ => ?_
        exact h.concludeLookup scope _ _ _ resolved m''

end Covers

def scriptsTo : (depth : Nat) → ScriptRunner
  | 0 => refuseScript
  | depth + 1 => Script.run (lookupTypeTo depth)

theorem lookupTypeTo_eq (depth : Nat) : lookupTypeTo depth = lookupTypeWith (scriptsTo depth) := by
  cases depth <;> rfl

/-- What becomes of a class when its script has ended: after a failure it belongs nowhere. -/
def settled (ended : Except ModelError (Option TypeRef)) (node : TypeNode) : TypeNode :=
  match ended with
  | .ok _ => node
  | .error _ => node.mapEntity (·.setOwner none "")

/-- Between the models the class `id` was made of a template: in the model `current` it is the next
to be made, then a script fills it, and the model `finish` is where the script ends. The class is
still as it was settled then. -/
structure Making (filled : Option TypeId) (m m' : Model) (id : TypeId) (made : Specialization)
    (ended : Except ModelError (Option TypeRef)) (current finish : Model) : Prop where
  isTemplate : (m.node made.template).isTemplate = true
  before : Adds filled m current
  next : id = current.next
  container : (current.node (current.specializationScope made.template)).isContainer = true
  ran : ∃ depth specializer, (m.node made.template).specializer? = some specializer ∧
    scriptsTo depth (specializer.fill id made.arguments) (current.withNewClass made) =
      (ended, finish)
  during : Adds (some id) (current.withNewClass made) finish
  left : m'.node id = settled ended (finish.node id)

/-- The second model comes from the first one by additions, and all of its new nodes are classes
that were made of templates. -/
structure Extends (filled : Option TypeId) (m m' : Model) : Prop extends Adds filled m m' where
  makings : ∀ id, ¬ m.Knows id → m'.Knows id →
    ∃ made ended current finish, Making filled m m' id made ended current finish

theorem Adds.opened (h : Adds none m m') (filled : Option TypeId) : Adds filled m m' where
  size_le := h.size_le
  config := h.config
  hook := h.hook
  journal := h.journal
  fixed id hk := TypeNode.fixed_of_fixed_false (h.fixed id hk) _
  types := h.types
  untemplated := h.untemplated

namespace Making

variable {made : Specialization} {ended : Except ModelError (Option TypeRef)}
  {current finish : Model}

theorem later (h : Making filled m m' id made ended current finish)
    (hn : m''.node id = m'.node id) : Making filled m m'' id made ended current finish :=
  { h with left := hn.trans h.left }

theorem earlier (h : Making filled' m' m'' id made ended current finish) (he : Adds filled m m')
    (hf : ∀ id, m.Knows id → filled' = some id → filled = some id) :
    Making filled m m'' id made ended current finish := by
  have hk := he.knows_of_isTemplate h.isTemplate
  obtain ⟨depth, specializer, hspecializer, hran⟩ := h.ran
  refine { h with
    isTemplate := (he.isTemplate_eq hk).symm.trans h.isTemplate
    before := he.trans h.before hf
    ran := ⟨depth, specializer, (he.specializer?_eq hk).symm.trans hspecializer, hran⟩ }

theorem opened (h : Making none m m' id made ended current finish) (filled : Option TypeId) :
    Making filled m m' id made ended current finish :=
  { h with before := h.before.opened filled }

theorem finish_entity (h : Making filled m m' id made ended current finish) :
    (finish.node id).entity = (current.newClass made).entity ∧
      (finish.node id).entityKind = .classType ∧
      (finish.node id).specialization = some made := by
  have hk : (current.withNewClass made).Knows id := knows_withNewClass_iff.mpr (.inr h.next)
  have hfixed := h.during.fixed id hk
  rw [h.next, node_withNewClass_next h.container, ← h.next] at hfixed
  refine ⟨TypeNode.entity_eq_of_fixed hfixed, ?_, ?_⟩
  · rw [TypeNode.entityKind_eq_of_fixed hfixed]
    rfl
  · rw [TypeNode.specialization_eq_of_fixed hfixed]
    rfl

theorem isSpecialization (h : Making filled m m' id made ended current finish) :
    (m'.node id).isClass = true ∧ (m'.node id).specialization = some made := by
  obtain ⟨-, hkind, hmade⟩ := h.finish_entity
  rw [h.left, TypeNode.isClass]
  cases ended with
  | ok found => exact ⟨decide_eq_true hkind, hmade⟩
  | error failure => exact ⟨decide_eq_true hkind, hmade⟩

theorem owner?_of_ok {found : Option TypeRef}
    (h : Making filled m m' id made (.ok found) current finish) :
    m'.owner? id = some (m.specializationScope made.template) := by
  have hk := knows_of_isTemplate h.isTemplate
  rw [owner?, h.left, settled, h.finish_entity.1, ← h.before.specializationScope_eq hk]
  rfl

theorem owner?_of_error {failure : ModelError}
    (h : Making filled m m' id made (.error failure) current finish) : m'.owner? id = none := by
  rw [owner?, h.left]
  rfl

end Making

theorem IsTree.knows_of_holdsSpecializations (ht : m.IsTree) (h : m.HoldsSpecializations id) :
    m.Knows id := by
  obtain ⟨template, -, rfl⟩ := h
  rw [specializationScope]
  cases ho : m.owner? template with
  | none => exact ht.knows_root
  | some owner => exact ht.owner_known ho

namespace Extends

theorem refl (filled : Option TypeId) (m : Model) : Extends filled m m :=
  ⟨.refl filled m, fun _ hk hk' => absurd hk' hk⟩

theorem opened (h : Extends none m m') (filled : Option TypeId) : Extends filled m m' where
  toAdds := h.toAdds.opened filled
  makings id hk hk' := by
    obtain ⟨made, ended, current, finish, hmaking⟩ := h.makings id hk hk'
    exact ⟨made, ended, current, finish, hmaking.opened filled⟩

theorem trans (h : Extends filled m m') (h' : Extends filled m' m'') (ht : m.IsTree)
    (hf : ∀ id, filled = some id → m.Knows id) : Extends filled m m'' where
  toAdds := h.toAdds.trans h'.toAdds fun _ _ hid => hid
  makings id hk hk'' := by
    by_cases hk' : m'.Knows id
    · obtain ⟨made, ended, current, finish, hmaking⟩ := h.makings id hk hk'
      refine ⟨made, ended, current, finish, hmaking.later ?_⟩
      refine h'.toAdds.node_eq hk' (fun hid => hk (hf id hid)) fun hs => hk ?_
      exact ht.knows_of_holdsSpecializations (h.toAdds.holdsSpecializations hs)
    · obtain ⟨made, ended, current, finish, hmaking⟩ := h'.makings id hk' hk''
      exact ⟨made, ended, current, finish, hmaking.earlier h.toAdds fun _ _ hid => hid⟩

end Extends

structure Standard (m : Model) : Prop where
  sound : Sound .free m
  hook : m.hook = none
  specializer : ∀ id specializer, (m.node id).specializer? = some specializer →
    specializer = StdTypes.vector ∨ specializer = StdTypes.map
  selfContained : m.SelfContained

namespace Standard

theorem ready (h : Standard m) : Ready True m.size m :=
  ⟨le_rfl, h.sound.isTree.knows_root, fun _ => StdTypes.tame_model h.hook h.specializer⟩

theorem fills (h : Standard m) {template : TypeId} {specializer : Specializer}
    (hs : (m.node template).specializer? = some specializer) (id : TypeId)
    (arguments : List TypeRef) : (specializer.fill id arguments).Fills id := by
  obtain rfl | rfl := h.specializer _ _ hs
  · exact StdTypes.fills_vector arguments
  · exact StdTypes.fills_map arguments

theorem after (h : Standard m) (hs : Sound .free m') (hg : Grows True m.size m m')
    (ha : Adds filled m m') : Standard m' where
  sound := hs
  hook := ha.hook.trans h.hook
  specializer id specializer hid := by
    have hk := ha.knows_of_isTemplate (isTemplate_of_specializer hid)
    exact h.specializer id specializer ((ha.specializer?_eq hk).symm.trans hid)
  selfContained := h.selfContained.grows hg

end Standard

def Lookups (filled : Option TypeId) (m m' : Model) : Prop :=
  Standard m → Standard m' ∧ Extends filled m m'

namespace Lookups

theorem refl (m : Model) : Lookups filled m m := fun hm => ⟨hm, .refl filled m⟩

theorem opened (h : Lookups none m m') (filled : Option TypeId) : Lookups filled m m' := fun hm =>
  ⟨(h hm).1, (h hm).2.opened filled⟩

theorem trans (h : Lookups filled m m') (hf : ∀ id, filled = some id → m.Knows id)
    (h' : (∀ id, filled = some id → m'.Knows id) → Lookups filled m' m'') :
    Lookups filled m m'' := by
  intro hm
  obtain ⟨hm', he⟩ := h hm
  obtain ⟨hm'', he'⟩ := h' (fun id hid => he.toAdds.knows (hf id hid)) hm'
  exact ⟨hm'', he.trans he' hm.sound.isTree hf⟩

end Lookups

theorem addOperation_direct {op : Operation} (hc : (m.node id).isContainer = true)
    (hp : op.entity.scopePath = "") :
    ∃ stored, addOperation id op m = .ok stored (m.withOperation id op) := by
  have hreq : requireContainer id "operations" m = .ok () m := by
    simp [requireContainer, ModelM.bind_apply, hc]
  have hscope : memberScope id op.entity.scopePath TypeNode.isContainer m = .ok id m := by
    simp [memberScope, ModelM.bind_apply, hp]
  rw [addOperation, ModelM.bind_apply, hreq]
  dsimp only
  rw [ModelM.bind_apply, hscope]
  exact ⟨_, rfl⟩

theorem after_addOperation (m : Model) (id : TypeId) {op : Operation}
    (hp : op.entity.scopePath = "") :
    (addOperation id op).after m = m ∨ (addOperation id op).after m = m.withOperation id op := by
  by_cases hc : (m.node id).isContainer = true
  · obtain ⟨stored, hok⟩ := addOperation_direct hc hp
    exact .inr (by rw [ModelM.after, hok])
  · left
    simp [ModelM.after, addOperation, requireContainer, ModelM.bind_apply, hc]

theorem lookups_addOperation {op : Operation} (hp : op.entity.scopePath = "") :
    Lookups (some id) m ((addOperation id op).after m) := by
  intro hm
  have ha : Adds (some id) m ((addOperation id op).after m) := by
    obtain he | he := after_addOperation m id hp <;> rw [he]
    · exact .refl _ m
    · exact .withOperation m id op
  have hsize : ((addOperation id op).after m).size = m.size := by
    obtain he | he := after_addOperation m id hp <;> rw [he]
    rw [withOperation, size_modifyNode]
  have htakes : Policy.free.Takes op := fun hfresh => hfresh.elim
  have hrun : Run .free m ((addOperation id op).after m) := (does_addOperation htakes).run
  have hgrows : Grows True m.size m ((addOperation id op).after m) := keeps_addOperation.grows
  refine ⟨hm.after (hrun.sound hm.sound) hgrows ha, ha, fun id' hk hk' => ?_⟩
  rw [Knows, hsize] at hk'
  exact absurd hk' hk

/-- The script of a class makes classes by its lookups, and otherwise adds operations to its own. -/
theorem lookups_script {lookup : TypeId → String → Search → ModelM TypeRef}
    (hl : ∀ scope name search m, Lookups none m ((lookup scope name search).after m))
    {script : Script} (hs : script.Fills id) (hf : ∀ id', some id = some id' → m.Knows id') :
    Lookups (some id) m (Script.run lookup script m).2 := by
  induction script generalizing m with
  | done result => exact .refl m
  | nameOf _ next ih => exact ih _ (hs _) hf
  | signatureOf _ next ih => exact ih _ (hs _) hf
  | lookup scope name search next ih =>
    rw [Script.run_lookup]
    exact ((hl scope name search m).opened (some id)).trans hf (ih _ (hs _))
  | addOperation scope op next ih =>
    obtain ⟨⟨rfl, hp⟩, hnext⟩ := hs
    rw [Script.run_addOperation]
    exact (lookups_addOperation hp).trans hf (ih _ (hnext _))
  | declare | installHook | removeHook => exact hs.elim

section

variable {template : TypeId} {specializer : Specializer} {arguments : List TypeRef}

theorem makeSpecialization_refused
    (hc : (m.node (m.specializationScope template)).isContainer = false) :
    (makeSpecialization run template specializer arguments).after m = m := by
  simp [makeSpecialization, addType, addTypeWith, requireContainer, ModelM.after, ModelM.bind_apply,
    hc]

theorem addType_newClass (hc : (m.node (m.specializationScope template)).isContainer = true)
    (hfree : m.madeSpecialization? template arguments = none) :
    addType (m.specializationScope template)
      (.specialized (m.specializationName template arguments) { template, arguments }) m =
        .ok m.next (m.withNewClass ⟨template, arguments⟩) := by
  rw [addType_direct hc rfl]
  exact enterType_of_free hc hfree

theorem makeSpecialization_eq
    (hc : (m.node (m.specializationScope template)).isContainer = true)
    (hfree : m.madeSpecialization? template arguments = none) :
    makeSpecialization run template specializer arguments m =
      match run (specializer.fill m.next arguments) (m.withNewClass ⟨template, arguments⟩) with
      | (.ok _, finish) => .ok m.next finish
      | (.error failure, finish) =>
        (do deleteType m.next; throw failure : ModelM TypeId) finish := by
  rw [makeSpecialization, ModelM.bind_apply, ModelM.get_apply]
  dsimp only
  rw [ModelM.bind_apply, addType_newClass hc hfree]
  simp only [ModelM.bind_apply, ModelM.get_apply, ModelM.set_apply]
  generalize run (specializer.fill m.next arguments) _ = result
  obtain ⟨failure | found, finish⟩ := result
  · exact ModelM.bind_apply _ _ _
  · rfl

theorem after_makeSpecialization_ok {found : Option TypeRef} {finish : Model}
    (hc : (m.node (m.specializationScope template)).isContainer = true)
    (hfree : m.madeSpecialization? template arguments = none)
    (hran : run (specializer.fill m.next arguments) (m.withNewClass ⟨template, arguments⟩) =
      (.ok found, finish)) :
    (makeSpecialization run template specializer arguments).after m = finish := by
  rw [ModelM.after, makeSpecialization_eq hc hfree, hran]

theorem after_makeSpecialization_error {failure : ModelError} {finish : Model}
    (ht : (m.node template).isTemplate = true)
    (hc : (m.node (m.specializationScope template)).isContainer = true)
    (hfree : m.madeSpecialization? template arguments = none)
    (hran : run (specializer.fill m.next arguments) (m.withNewClass ⟨template, arguments⟩) =
      (.error failure, finish))
    (ha : Adds (some m.next) (m.withNewClass ⟨template, arguments⟩) finish) :
    (makeSpecialization run template specializer arguments).after m =
      finish.released (m.specializationScope template) m.next := by
  have hnext : (m.withNewClass ⟨template, arguments⟩).Knows m.next :=
    knows_withNewClass_iff.mpr (.inr rfl)
  have ho : finish.owner? m.next = some (m.specializationScope template) := by
    have hnode : (m.withNewClass ⟨template, arguments⟩).node m.next =
        m.newClass ⟨template, arguments⟩ := node_withNewClass_next hc
    rw [ha.owner?_eq hnext, owner?, hnode]
    rfl
  have hcontainer : (finish.node (m.specializationScope template)).isContainer = true := by
    have hk := knows_of_isContainer hc
    have hscope : (m.withNewClass ⟨template, arguments⟩).Knows (m.specializationScope template) :=
      knows_withNewClass_iff.mpr (.inl hk)
    have hlisted : Adds none m (m.withNewClass ⟨template, arguments⟩) :=
      .withNewClass ht hc hfree
    rw [ha.isContainer_eq hscope, hlisted.isContainer_eq hk]
    exact hc
  rw [ModelM.after, makeSpecialization_eq hc hfree, hran]
  dsimp only
  rw [deleteType, ModelM.bind_apply, detach_eq ho hcontainer]
  rfl

variable {depth : Nat}

theorem runs_scriptsTo (depth : Nat) : Runs p (scriptsTo depth) := by
  cases depth with
  | zero => exact runs_refuseScript
  | succ depth =>
    exact runs_script fun scope name search _ => does_lookupTypeTo depth scope name search

theorem keeps_scriptsTo (depth : Nat) : KeepsScripts tame (scriptsTo depth) := by
  cases depth with
  | zero => exact keeps_refuseScript
  | succ depth =>
    exact keeps_script fun _ scope name search _ => keeps_lookupTypeTo depth scope name search

theorem run_withNewClass (hs : Sound p m) (ht : (m.node template).isTemplate = true)
    (hc : (m.node (m.specializationScope template)).isContainer = true)
    (hfree : m.madeSpecialization? template arguments = none) :
    Run p m (m.withNewClass ⟨template, arguments⟩) := by
  have hmake : Change p m (m.allocated
      (.specialized (m.specializationName template arguments) { template, arguments })) :=
    @Change.specialized p m { template, arguments } ht
  have hblank := (TypeNode.isSimple_specialized (m.specializationName template arguments)
    { template, arguments }).toIsBlank
  exact (does_addType_of_free hs hmake hblank rfl hfree).run_of_ok (addType_newClass hc hfree)

theorem Standard.withNewClass (hm : Standard m) (ht : (m.node template).isTemplate = true)
    (hc : (m.node (m.specializationScope template)).isContainer = true)
    (hfree : m.madeSpecialization? template arguments = none) :
    Standard (m.withNewClass ⟨template, arguments⟩) := by
  have hsimple := TypeNode.isSimple_specialized (m.specializationName template arguments)
    { template, arguments }
  have hrun := run_withNewClass hm.sound ht hc hfree
  have hgrows := (keeps_addType_of_free hm.ready hsimple rfl hfree fun _ =>
    m.mem_specializationName template arguments).grows_of_ok (addType_newClass hc hfree)
  exact hm.after (hrun.sound hm.sound) hgrows (.withNewClass ht hc hfree)

theorem makings_of_run {ended : Except ModelError (Option TypeRef)} {finish : Model}
    (hspecializer : (m.node template).specializer? = some specializer)
    (hc : (m.node (m.specializationScope template)).isContainer = true)
    (hfree : m.madeSpecialization? template arguments = none)
    (hran : scriptsTo depth (specializer.fill m.next arguments)
      (m.withNewClass ⟨template, arguments⟩) = (ended, finish))
    (he : Extends (some m.next) (m.withNewClass ⟨template, arguments⟩) finish)
    (hleft : m'.node m.next = settled ended (finish.node m.next))
    (hrest : ∀ id, id ≠ m.next → ¬ m.Knows id → m'.node id = finish.node id) :
    ∀ id, ¬ m.Knows id → finish.Knows id →
      ∃ made ended current finish, Making none m m' id made ended current finish := by
  intro id hk hk'
  have hisTemplate := isTemplate_of_specializer hspecializer
  by_cases hid : id = m.next
  · subst hid
    exact ⟨⟨template, arguments⟩, ended, m, finish, hisTemplate, .refl none m, rfl, hc,
      ⟨depth, specializer, hspecializer, hran⟩, he.toAdds, hleft⟩
  · have hk₁ : ¬ (m.withNewClass ⟨template, arguments⟩).Knows id := fun hk₁ =>
      (knows_withNewClass_iff.mp hk₁).elim hk hid
    obtain ⟨made, ended', current, finish', hmaking⟩ := he.makings id hk₁ hk'
    refine ⟨made, ended', current, finish', (hmaking.earlier ?_ ?_).later (hrest id hid hk)⟩
    · exact .withNewClass hisTemplate hc hfree
    · rintro _ hk' ⟨⟩
      exact absurd hk' not_knows_next

/-- The making of a class, where the scripts nested in it make classes only. -/
theorem lookups_made (hrun : ∀ {script : Script} {id : TypeId} {m : Model}, script.Fills id →
      (∀ id', some id = some id' → m.Knows id') →
        Lookups (some id) m (scriptsTo depth script m).2)
    (hspecializer : (m.node template).specializer? = some specializer)
    (hfree : m.madeSpecialization? template arguments = none) :
    Lookups none m ((makeSpecialization (scriptsTo depth) template specializer arguments).after
      m) := by
  intro hm
  have hisTemplate := isTemplate_of_specializer hspecializer
  have hsound := (does_makeSpecialization (runs_scriptsTo depth) hm.sound
    (hm.sound.specializer _ _ hspecializer) hisTemplate hfree).run.sound hm.sound
  have hgrows := (keeps_makeSpecialization (keeps_scriptsTo depth) hm.ready
    (fun ht => (hm.ready.tame ht).specializer _ _ hspecializer) hfree).grows
  by_cases hc : (m.node (m.specializationScope template)).isContainer = true
  swap
  · rw [makeSpecialization_refused (by simpa using hc)]
    exact ⟨hm, .refl none m⟩
  have hnext : (m.withNewClass ⟨template, arguments⟩).Knows m.next :=
    knows_withNewClass_iff.mpr (.inr rfl)
  have hfill := hrun (hm.fills hspecializer m.next arguments)
    (fun id' hid => Option.some.inj hid ▸ hnext) (hm.withNewClass hisTemplate hc hfree)
  obtain ⟨⟨ended, finish⟩, hran⟩ : ∃ result, scriptsTo depth (specializer.fill m.next arguments)
      (m.withNewClass ⟨template, arguments⟩) = result := ⟨_, rfl⟩
  rw [hran] at hfill
  have he : Extends (some m.next) (m.withNewClass ⟨template, arguments⟩) finish := hfill.2
  have hlisted : Adds none m (m.withNewClass ⟨template, arguments⟩) :=
    .withNewClass hisTemplate hc hfree
  have hadds : Adds none m finish := by
    refine hlisted.trans he.toAdds ?_
    rintro _ hk ⟨⟩
    exact absurd hk not_knows_next
  cases ended with
  | ok found =>
    rw [after_makeSpecialization_ok hc hfree hran] at hsound hgrows ⊢
    exact ⟨hm.after hsound hgrows hadds, hadds,
      makings_of_run hspecializer hc hfree hran he rfl fun _ _ _ => rfl⟩
  | error failure =>
    rw [after_makeSpecialization_error hisTemplate hc hfree hran he.toAdds] at hsound hgrows ⊢
    have hname : (finish.node m.next).name = m.specializationName template arguments := by
      have hfixed := he.toAdds.fixed m.next hnext
      have hnode : (m.withNewClass ⟨template, arguments⟩).node m.next =
          m.newClass ⟨template, arguments⟩ := node_withNewClass_next hc
      rw [hnode] at hfixed
      rw [TypeNode.name, TypeNode.entity_eq_of_fixed hfixed]
      rfl
    have hreleased : Adds none m (finish.released (m.specializationScope template) m.next) := by
      refine hadds.released not_knows_next (hname ▸ hfree) fun s name hget => ?_
      exact not_knows_next (hm.selfContained.aliased hget)
    have hne : m.next ≠ m.specializationScope template :=
      (ne_next_of_knows (knows_of_isContainer hc)).symm
    refine ⟨hm.after hsound hgrows hreleased, hreleased, fun id hk hk' => ?_⟩
    refine makings_of_run hspecializer hc hfree hran he ?_ (fun id hid hk => ?_) id hk ?_
    · exact node_released_self (he.toAdds.knows hnext) hne
    · rw [node_released_of_ne hid, if_neg]
      rintro rfl
      exact hk (knows_of_isContainer hc)
    · simpa [released, Knows] using hk'

end

theorem after_consultHook_of_none (h : m.hook = none) (scope : TypeId) (name : String) :
    (consultHook run scope name).after m = m := by
  simp [consultHook, ModelM.after, ModelM.bind_apply, h]

theorem lookups_lookupTypeTo_of {depth : Nat}
    (hrun : ∀ {script : Script} {id : TypeId} {m : Model}, script.Fills id →
      (∀ id', some id = some id' → m.Knows id') →
        Lookups (some id) m (scriptsTo depth script m).2)
    (scope : TypeId) (query : String) (search : Search) (m : Model) :
    Lookups none m ((lookupTypeTo depth scope query search).after m) := by
  have hcovers : Covers (scriptsTo depth) (Lookups none) := {
    refl := .refl
    trans := fun h h' => h.trans nofun fun _ => h'
    asked := fun m scope name hm => by
      rw [after_consultHook_of_none hm.hook]
      exact ⟨hm, .refl none m⟩
    made := fun _ hspecializer hfree => lookups_made hrun hspecializer hfree }
  rw [lookupTypeTo_eq]
  exact hcovers.lookupTypeBelow _ scope query search m

/-- The induction is on the depth to which scripts are nested. -/
theorem lookups_scriptsTo (depth : Nat) {script : Script} (hs : script.Fills id)
    (hf : ∀ id', some id = some id' → m.Knows id') :
    Lookups (some id) m (scriptsTo depth script m).2 := by
  induction depth generalizing script id m with
  | zero => exact .refl m
  | succ depth ih => exact lookups_script (lookups_lookupTypeTo_of ih) hs hf

theorem lookups_lookupType (scope : TypeId) (query : String) (search : Search) (m : Model) :
    Lookups none m ((lookupType scope query search).after m) :=
  lookups_lookupTypeTo_of (lookups_scriptsTo scriptDepth) scope query search m

/-- Without a hook and with no templates but those of the standard library, a lookup, failed or not,
leaves the nodes that were there as they are, except that classes are listed behind the types of
scopes that hold specializations. Each of these was made of a template there, by a run of its script
that came to its end. All new nodes were made of templates; those whose scripts came to their ends
are listed, and those whose scripts failed are so nowhere, under no name and no alias. -/
theorem Reachable.lookupType_footprint (h : Reachable p m) (hp : p.ownTypedefs)
    (hhook : m.hook = none)
    (hstd : ∀ id specializer, (m.node id).specializer? = some specializer →
      specializer = StdTypes.vector ∨ specializer = StdTypes.map)
    (hm' : m' = (lookupType scope query search).after m) :
    (∀ id, m.Knows id → (m'.node id).fixed false = (m.node id).fixed false ∧
      ∃ added, (m'.members id).types.entries = (m.members id).types.entries ++ added ∧
        (added ≠ [] → m.HoldsSpecializations id) ∧
        ∀ entry ∈ added, ∃ made found current finish,
          Making none m m' entry.2 made (.ok found) current finish ∧
          (m'.node entry.2).isClass = true ∧
          (m'.node entry.2).specialization = some made ∧
          m.specializationScope made.template = id) ∧
    (∀ id, ¬ m.Knows id → m'.Knows id → ∃ made ended current finish,
      Making none m m' id made ended current finish ∧
      (∀ found, ended = .ok found →
        m'.type? (m.specializationScope made.template) (m'.node id).name = some id) ∧
      (∀ failure, ended = .error failure → ∀ s name, m'.type? s name ≠ some id ∧
        ∀ ty, (m'.members s).typeAliases.get? name = some ty → ty.base ≠ id)) := by
  rw [hm']
  have hself := h.selfContained hp
  have hm : Standard m := ⟨h.sound.free, hhook, hstd, hself⟩
  obtain ⟨hm', he⟩ := lookups_lookupType scope query search m hm
  have hgrows := (keeps_lookupType scope query search hm.ready).grows
  refine ⟨fun id hk => ⟨he.toAdds.fixed id hk, ?_⟩, fun id hk hk' => ?_⟩
  · obtain ⟨added, hentries, hadded⟩ := he.toAdds.types id hk
    refine ⟨added, hentries, fun hne => ?_, fun ⟨name, new⟩ hentry => ?_⟩
    · obtain ⟨entry, hentry⟩ := List.exists_mem_of_ne_nil _ hne
      exact (hadded entry hentry).2
    · have hlisted : ((lookupType scope query search).after m).type? id name = some new := by
        rw [type?_eq_get?_members, OrderedMap.get?_eq_some_iff, hentries]
        exact List.mem_append_right _ hentry
      have ho := (hm'.sound.isTree.listed hlisted).2
      obtain ⟨made, ended, current, finish, hmaking⟩ :=
        he.makings new (hadded _ hentry).1 (knows_of_owner ho)
      cases ended with
      | ok found =>
        refine ⟨made, found, current, finish, hmaking, hmaking.isSpecialization.1,
          hmaking.isSpecialization.2, ?_⟩
        exact Option.some.inj (hmaking.owner?_of_ok.symm.trans ho)
      | error failure => exact absurd (hmaking.owner?_of_error.symm.trans ho) nofun
  · obtain ⟨made, ended, current, finish, hmaking⟩ := he.makings id hk hk'
    refine ⟨made, ended, current, finish, hmaking, ?_, ?_⟩
    · rintro found rfl
      refine hm'.sound.isTree.owned hmaking.owner?_of_ok ?_
      have hscope : m.Knows (m.specializationScope made.template) :=
        h.sound.isTree.knows_of_holdsSpecializations ⟨_, hmaking.isTemplate, rfl⟩
      have hcontainer := hmaking.container
      rwa [hmaking.before.specializationScope_eq (knows_of_isTemplate hmaking.isTemplate),
        hmaking.before.isContainer_eq hscope, ← he.toAdds.isContainer_eq hscope] at hcontainer
    rintro failure rfl s name
    refine ⟨fun hlisted => ?_, fun ty hty hbase => ?_⟩
    · have ho := (hm'.sound.isTree.listed hlisted).2
      exact absurd (hmaking.owner?_of_error.symm.trans ho) nofun
    · -- aliases are as they were, and lead to types that were there
      have hknown := hself.aliased ((hgrows.members s).ofAliased hty)
      exact hk (hbase ▸ hknown)

/-- The map is not made, since `vector<n::A,n::A>` has too many arguments. The vector that was made
first stays in `std`, and the other one belongs nowhere. -/
theorem vector_kept_of_failed_map : ∃ failure m',
    lookupType ⟨8⟩ "std::map<std::vector<A>,std::vector<A,A>>" .owners stdModel =
      .error failure m' ∧ m'.size = 12 ∧
    (m'.node ⟨4⟩).fixed false = (stdModel.node ⟨4⟩).fixed false ∧
    m'.type? ⟨4⟩ "vector<n::A>" = some ⟨10⟩ ∧ ∀ s name, m'.type? s name ≠ some ⟨11⟩ := by
  have hfails : stdModel.sizeAfterFailure
      (lookupType ⟨8⟩ "std::map<std::vector<A>,std::vector<A,A>>" .owners) = some 12 := by
    decide +kernel
  obtain ⟨failure, m', he, hsize⟩ := sizeAfterFailure_eq_some hfails
  have hafter : m' = (lookupType ⟨8⟩ "std::map<std::vector<A>,std::vector<A,A>>" .owners).after
      stdModel := by rw [ModelM.after, he]
  obtain ⟨hlisted, hloose⟩ :
      m'.type? ⟨4⟩ "vector<n::A>" = some ⟨10⟩ ∧ m'.owner? ⟨11⟩ = none := by
    rw [hafter]
    decide +kernel
  obtain ⟨hkept, hnew⟩ := (reachable_stdModel_of .typedefsOwn).lookupType_footprint trivial
    (by decide +kernel) specializer_stdModel hafter
  obtain ⟨made, ended, current, finish, hmaking, -, hnowhere⟩ :=
    hnew ⟨11⟩ (by decide +kernel) (by rw [Knows, hsize]; decide)
  cases ended with
  | ok found =>
    rw [hmaking.owner?_of_ok] at hloose
    cases hloose
  | error e =>
    exact ⟨failure, m', he, hsize, (hkept ⟨4⟩ (by decide +kernel)).1, hlisted,
      fun s name => (hnowhere e rfl s name).1⟩

end Model

end ApiModel
