import ApiModel.Proofs.Creating

/-!
The models that users can reach: a new model, and then any operations in any order, those that fail
included. Whatever the first model has and every elementary change keeps, all of them have.
-/

namespace ApiModel

open Relation

inductive Setting where
  | typedef (target : TypeRef)
  | invalidValue (text : String)
  | checkType (checked : Bool)
  | package (name : String)
  | deleteMethod (name : String)
  | ignored (value : Bool)
  | exportName (text : String)
  | aliasName (text : String)
  | flags (list : List Flag)
  | addFlag (flag : Flag)
  /-- Asking for the export name lets the type remember it. -/
  | askExportName (libraryPrefix : String)

def Setting.apply (node : TypeNode) : Setting → Except ModelError TypeNode
  | typedef target => .ok { node with typedef := some target }
  | invalidValue text => .ok { node with invalidValue := text }
  | checkType checked => .ok { node with checkType := checked }
  | package name => node.setPackage name
  | deleteMethod name => .ok { node with deleteMethod := some name }
  | ignored value => .ok (node.mapEntity (·.setIgnored value))
  | exportName text => .ok (node.mapEntity (·.setExportName text))
  | aliasName text => .ok (node.mapEntity (·.setAlias text))
  | flags list => node.setFlags list
  | addFlag flag => node.addFlag flag
  | askExportName libraryPrefix =>
    .ok (node.mapEntity fun entity => (entity.askExportName libraryPrefix).2)

def Setting.Within (p : Policy) : Setting → Prop
  | aliasName text => p.Allows text
  | _ => True

/-- One operation on a model. -/
inductive Action where
  | addType (scope : TypeId) (node : TypeNode) (checkExists : Bool)
  | addNamespace (scope : TypeId) (path : String)
  | addTemplate (scope : TypeId) (name : String) (specializer : Specializer)
  | addTypedef (scope : TypeId) (name : String) (target : TypeRef)
  | addEnumValue (id : TypeId) (name : String) (value : Option String)
  | addOperation (scope : TypeId) (op : Operation)
  | addAttribute (scope : TypeId) (a : Attribute)
  | addConstant (scope : TypeId) (c : Constant)
  | addParent (id base : TypeId)
  | useNamespace (scope used : TypeId)
  | deleteType (id : TypeId)
  | renameType (id : TypeId) (name : String)
  | moveType (id scope : TypeId)
  | lookupType (scope : TypeId) (query : String) (search : Search)
  | annotate (id : TypeId) (setting : Setting)
  | setHook (hook : Hook)
  | clearHook

namespace Action

open Model in
def run : Action → ModelM Unit
  | addType scope node checkExists => do let _ ← addTypeWith scope node checkExists
  | addNamespace scope path => do let _ ← Model.addNamespace scope path
  | addTemplate scope name specializer => do let _ ← Model.addTemplate scope name specializer
  | addTypedef scope name target => Model.addTypedef scope name target
  | addEnumValue id name value => Model.addEnumValue id name value
  | addOperation scope op => do let _ ← Model.addOperation scope op
  | addAttribute scope a => do let _ ← Model.addAttribute scope a
  | addConstant scope c => do let _ ← Model.addConstant scope c
  | addParent id base => Model.addParent id base
  | useNamespace scope used => Model.useNamespace scope used
  | deleteType id => Model.deleteType id
  | renameType id name => Model.renameType id name
  | moveType id scope => Model.moveType id scope
  | lookupType scope query search => do let _ ← Model.lookupType scope query search
  | annotate id setting => do
    let m ← get
    let node ← ModelM.ofExcept (setting.apply (m.node id))
    set (m.modifyNode id fun _ => node)
  | setHook hook => modify fun m => { m with hook := some hook }
  | clearHook => modify fun m => { m with hook := none }

/-- What callers keep to when they do it. A namespace is asked for in a scope that exists, and no
type is renamed into a namespace that lies inside of it. -/
def Admissible (p : Policy) (m : Model) : Action → Prop
  | addType _ node _ => node.IsFresh p
  | addNamespace scope path => m.Knows scope ∧ p.Allows path
  | addTemplate _ name specializer => p.Allows name ∧ specializer.Within p
  | addTypedef _ name target => p.Allows name ∧ p.AllowsTypedef m target
  | addOperation _ op => p.Takes op
  | addConstant _ c => p.Allows c.entity.scopePath
  | renameType id name => p.Allows name ∧ ¬ m.RenamesIntoItself id name
  | annotate _ setting => setting.Within p
  | setHook hook => hook.Within p
  | _ => True

end Action

/-- The model is reached by operations of callers that keep to the policy. -/
inductive Model.Reachable (p : Policy) : Model → Prop
  | created {config : Config} {m : Model} (within : config.Within p)
      (new : Model.create config = .ok m) : Reachable p m
  | step {m : Model} (before : Reachable p m) (action : Action)
      (admissible : action.Admissible p m) : Reachable p (action.run.after m)

namespace Setting

variable {p : Policy} {node node' : TypeNode}

theorem annotated {setting : Setting} (hw : setting.Within p)
    (h : setting.apply node = .ok node') : node.Annotated p node' := by
  cases setting with
  | typedef | invalidValue | checkType | deleteMethod =>
    cases h
    exact ⟨⟨rfl, rfl, rfl⟩, rfl, rfl, rfl, rfl, rfl, .inl rfl⟩
  | package name =>
    unfold apply TypeNode.setPackage at h
    cases hf : node.addFlag .foreign with
    | error e => simp [hf, bind, Except.bind] at h
    | ok flagged =>
      simp only [hf, bind, Except.bind, pure, Except.pure, Except.ok.injEq] at h
      subst h
      refine (TypeNode.Annotated.addFlag hf).trans ?_
      exact ⟨⟨rfl, rfl, rfl⟩, rfl, rfl, rfl, rfl, rfl, .inl rfl⟩
  | ignored =>
    cases h
    exact .mapEntity node ⟨rfl, rfl, rfl⟩ (.inl rfl)
  | exportName text =>
    cases h
    exact .setExportName text node
  | aliasName text =>
    cases h
    exact .setAlias hw node
  | flags list =>
    unfold apply TypeNode.setFlags Entity.setFlags at h
    cases hv : node.entityKind.validate list with
    | error e => simp [hv, bind, Except.bind] at h
    | ok u =>
      simp only [hv, bind, Except.bind, pure, Except.pure, Except.ok.injEq] at h
      subst h
      exact .mapEntity (f := fun e => { e with flags := list }.touch) node ⟨rfl, rfl, rfl⟩
        (.inl rfl)
  | addFlag flag =>
    have hf : node.addFlag flag = .ok node' := h
    exact .addFlag hf
  | askExportName libraryPrefix =>
    cases h
    refine .mapEntity node ?_ (.inl ?_)
    · unfold Entity.askExportName
      dsimp only
      split <;> exact ⟨rfl, rfl, rfl⟩
    · unfold Entity.askExportName
      dsimp only
      split <;> rfl

end Setting

theorem Operation.isFresh_of_ofName {name : String} {op : Operation}
    (h : Operation.ofName name = .ok op) : op.IsFresh := by
  unfold Operation.ofName at h
  cases he : Entity.ofName name with
  | error e => simp [he, bind, Except.bind] at h
  | ok e =>
    simp only [he, bind, Except.bind, pure, Except.pure, Except.ok.injEq] at h
    subst h
    exact ⟨rfl, rfl⟩

theorem Operation.isFresh_getter {a : Attribute} {op : Operation} (h : getter a = .ok op) :
    op.IsFresh := by
  unfold getter at h
  cases ho : ofName ("get_" ++ a.name) with
  | error e => simp [ho, bind, Except.bind] at h
  | ok op' =>
    obtain ⟨hb, ha⟩ := isFresh_of_ofName ho
    simp only [ho, bind, Except.bind, pure, Except.pure, Except.ok.injEq] at h
    subst h
    exact ⟨hb, ha⟩

theorem Operation.isFresh_setter {a : Attribute} {void : TypeRef} {op : Operation}
    (h : setter a void = .ok op) : op.IsFresh := by
  unfold setter at h
  cases ho : ofName ("set_" ++ a.name) with
  | error e => simp [ho, bind, Except.bind] at h
  | ok op' =>
    obtain ⟨hb, ha⟩ := isFresh_of_ofName ho
    cases hp : Parameter.ofName "value" a.type with
    | error e => simp [ho, hp, bind, Except.bind] at h
    | ok value =>
      simp only [ho, hp, bind, Except.bind, pure, Except.pure, Except.ok.injEq] at h
      subst h
      exact ⟨hb, ha⟩

namespace Model

variable {p : Policy} {m : Model}

theorem does_addAttribute {scope : TypeId} {a : Attribute} (hs : Sound p m) :
    Does p m (addAttribute scope a) fun _ _ => True := by
  unfold addAttribute
  refine (does_memberScope scope _ _).bind ?_
  rintro target _ - ⟨rfl, -⟩
  refine .get_bind ?_
  dsimp only
  split
  · exact .throw_bind _ _
  split
  · exact .throw_bind _ _
  refine .ofExcept_bind fun getter hg => ?_
  have hgetter : ∀ m, Does p m (addOperation target getter) fun _ _ => True := fun m =>
    does_addOperation fun _ => Operation.isFresh_getter hg
  have hstore : ∀ m : Model, Does p m (set (m.withAttribute target a)) fun _ _ => True := fun m =>
    .set .attributeAdded trivial
  split
  · refine (does_lookupType _ _ _ hs).bind fun void m₁ _ _ => ?_
    simp only [map_eq_pure_bind, bind_assoc, pure_bind]
    refine .ofExcept_bind fun setter hset => .get_bind ?_
    refine (hstore m₁).bind fun _ m₂ _ _ => (hgetter m₂).bind fun _ m₃ _ _ => ?_
    refine Does.bind (does_addOperation fun _ => Operation.isFresh_setter hset)
      fun _ _ _ _ => .pure trivial
  · simp only [pure_bind]
    refine .get_bind ?_
    exact (hstore m).bind fun _ m₁ _ _ => (hgetter m₁).bind fun _ _ _ _ => .pure trivial

theorem does_action {action : Action} (hs : Sound p m) (ha : action.Admissible p m) :
    Does p m action.run fun _ _ => True := by
  cases action with
  | addType scope node checkExists =>
    exact (does_addTypeWith hs ha).bind fun _ _ _ _ => .pure trivial
  | addNamespace scope path =>
    exact (does_addNamespace hs ha.1 ha.2).bind fun _ _ _ _ => .pure trivial
  | addTemplate scope name specializer =>
    exact (does_addTemplate hs ha.1 ha.2).bind fun _ _ _ _ => .pure trivial
  | addTypedef scope name target => exact does_addTypedef ha.1 ha.2
  | addEnumValue id name value => exact does_addEnumValue
  | addOperation scope op => exact (does_addOperation ha).bind fun _ _ _ _ => .pure trivial
  | addAttribute scope a => exact (does_addAttribute hs).bind fun _ _ _ _ => .pure trivial
  | addConstant scope c => exact (does_addConstant hs ha).bind fun _ _ _ _ => .pure trivial
  | addParent id base => exact does_addParent
  | useNamespace scope used => exact does_useNamespace
  | deleteType id => exact (does_detach id).mono fun _ _ _ _ => trivial
  | renameType id name => exact does_renameType hs ha.1 ha.2
  | moveType id scope => exact does_moveType hs
  | lookupType scope query search =>
    exact (does_lookupType scope query search hs).bind fun _ _ _ _ => .pure trivial
  | annotate id setting =>
    refine .get_bind (.ofExcept_bind fun node hn => ?_)
    exact .set (.annotated (Setting.annotated ha hn)) trivial
  | setHook hook =>
    refine .modify (.consulted (fun h he => ?_) List.prefix_rfl) trivial
    exact Option.some.inj he ▸ ha
  | clearHook => exact .modify (.consulted nofun List.prefix_rfl) trivial

end Model

namespace Model

variable {p : Policy} {m : Model}

/-- Every reachable model comes from a root alone by elementary changes. -/
theorem Reachable.exists_run (h : Reachable p m) :
    ∃ config root, config.Within p ∧ rootOnly config = .ok root ∧ Run p root m := by
  induction h with
  | @created config m within new =>
    obtain ⟨root, hroot, hrun⟩ := run_of_create within new
    exact ⟨config, root, within, hroot, hrun⟩
  | step _ action admissible ih =>
    obtain ⟨config, root, hw, hroot, hrun⟩ := ih
    have hs := hrun.sound (sound_rootOnly hroot)
    exact ⟨config, root, hw, hroot, hrun.trans (does_action hs admissible).run⟩

/-- What a root alone has, and every elementary change keeps, all reachable models have. -/
theorem Reachable.induct {P : Model → Prop}
    (root : ∀ {config root}, config.Within p → rootOnly config = .ok root → P root)
    (change : ∀ {m m'}, Sound p m → P m → Change p m m' → P m') (h : Reachable p m) : P m := by
  obtain ⟨config, r, hw, hroot, hrun⟩ := h.exists_run
  suffices hall : Sound p m ∧ P m from hall.2
  clear h
  induction hrun with
  | refl => exact ⟨sound_rootOnly hroot, root hw hroot⟩
  | tail _ hc ih => exact ⟨hc.sound ih.1, change ih.1 ih.2 hc⟩

theorem Reachable.sound (h : Reachable p m) : Sound p m :=
  h.induct (fun _ => sound_rootOnly) fun hs _ hc => hc.sound hs

def bare : Model where
  nodes := #[{ entity := { name := "r" }, kind := .container .namespaceType {}, isRoot := true }]
  config := { rootName := "r", builtinTypes := [], builtinAliases := [], stdTypes := false }

def afterAll (m : Model) (actions : List Action) : Model :=
  actions.foldl (fun m action => action.run.after m) m

theorem reachable_bare : Reachable p bare := by
  have hw : bare.config.Within p := ⟨fun _ => by decide, nofun, nofun⟩
  exact .created hw (show create bare.config = .ok bare from rfl)

theorem Reachable.afterAll (h : Reachable p m) {actions : List Action}
    (ha : ∀ action ∈ actions, ∀ m, action.Admissible p m) : Reachable p (m.afterAll actions) := by
  induction actions generalizing m with
  | nil => exact h
  | cons action actions ih =>
    obtain ⟨hfirst, hrest⟩ := List.forall_mem_cons.mp ha
    exact ih (h.step action (hfirst m)) hrest

def declaration (kind : ContainerKind) (path name : String) : TypeNode where
  entity := { name, scopePath := path }
  kind := .container kind {}

theorem isFresh_declaration {kind : ContainerKind} {path name : String} (hp : p.Allows path)
    (hn : p.Allows name) : (declaration kind path name).IsFresh p where
  owner := rfl
  members _ h := by cases h; rfl
  isRoot := rfl
  name := hn
  scopePath := hp
  aliasName := nofun
  specialization := rfl
  specializer := nofun

/-- Scopes list exactly the types that belong to them, each once and under its own name, and the
owners of a type lead to an end. -/
theorem Reachable.types_form_tree (h : Reachable p m) :
    (∀ s members, m.scope? s = some members → ∀ name id, (name, id) ∈ members.types.entries →
      (m.node id).name = name ∧ m.owner? id = some s) ∧
    (∀ id s members, m.owner? id = some s → m.scope? s = some members →
      ((m.node id).name, id) ∈ members.types.entries) ∧
    (∀ s members, m.scope? s = some members → members.types.values.Nodup) ∧
    (∀ s s' members members' id, m.scope? s = some members → m.scope? s' = some members' →
      id ∈ members.types.values → id ∈ members'.types.values → s = s') ∧
    Acyclic m.Owned ∧ m.owner? .root = none := by
  have ht := h.sound.isTree
  refine ⟨fun s members hs name id he => ?_, fun id s members ho hs => ?_,
    fun s members hs => ?_, fun s s' members members' id hs hs' hid hid' => ?_, ht.acyclic,
    ht.root_owner⟩
  · exact ht.listed ((type?_eq_some_iff_mem hs).mpr he)
  · exact (type?_eq_some_iff_mem hs).mp (ht.owned ho (isContainer_iff.mpr ⟨members, hs⟩))
  · -- entries of one type have one name, and no name has two entries
    refine List.Nodup.map_on ?_ (List.Nodup.of_map _ members.types.nodup)
    rintro ⟨name, id⟩ he ⟨name', id'⟩ he' rfl
    have hname := ht.listed_unique ((type?_eq_some_iff_mem hs).mpr he)
      ((type?_eq_some_iff_mem hs).mpr he')
    rw [hname.2]
  · obtain ⟨⟨name, id⟩, he, rfl⟩ := List.mem_map.mp hid
    obtain ⟨⟨name', id'⟩, he', rfl⟩ := List.mem_map.mp hid'
    exact (ht.listed_unique ((type?_eq_some_iff_mem hs).mpr he)
      ((type?_eq_some_iff_mem hs').mpr he')).1

/-- The class `n::A` belongs to the namespace `n`, which lists it. -/
theorem types_form_tree_of_class :
    ∃ m, Reachable .free m ∧ m.type? ⟨1⟩ "A" = some ⟨2⟩ ∧ m.owner? ⟨2⟩ = some ⟨1⟩ := by
  have h : Reachable .free (bare.afterAll [.addType .root (declaration .classType "n" "A") true]) :=
    reachable_bare.afterAll fun action ha m => by
      obtain rfl := List.mem_singleton.mp ha
      exact isFresh_declaration nofun nofun
  have htype : (bare.afterAll
      [.addType .root (declaration .classType "n" "A") true]).type? ⟨1⟩ "A" = some ⟨2⟩ := by
    decide +kernel
  obtain ⟨members, hs, hg⟩ := type?_eq_some_iff.mp htype
  have hlisted := h.types_form_tree.1 ⟨1⟩ members hs "A" ⟨2⟩ (OrderedMap.get?_eq_some_iff.mp hg)
  exact ⟨_, h, htype, hlisted.2⟩

end Model

end ApiModel
