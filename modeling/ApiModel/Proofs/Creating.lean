import ApiModel.Proofs.LookingUp

/-!
New models. The standard types keep to every policy, so a new model keeps to that of the
configuration's names.
-/

namespace ApiModel

structure Config.Within (p : Policy) (config : Config) : Prop where
  rootName : p.Allows config.rootName
  builtinTypes : ∀ name ∈ config.builtinTypes, p.Allows name
  builtinAliases : ∀ entry ∈ config.builtinAliases, p.Allows entry.name

namespace StdTypes

variable {p : Policy}

theorem within_proceed {α : Type} {next : α → Script} (h : ∀ a, (next a).Within p)
    (result : Except ModelError α) : (Script.proceed next result).Within p := by
  cases result with
  | ok a => exact h a
  | error e => trivial

theorem within_builtin {name : String} {next : TypeRef → Script} (h : ∀ ty, (next ty).Within p) :
    (Script.builtin name next).Within p := within_proceed h

theorem within_addOperations {scope : TypeId} {ops : List Operation} {next : Script}
    (h : ∀ op ∈ ops, op.IsFresh) (hn : next.Within p) :
    (Script.addOperations scope ops next).Within p := by
  induction ops with
  | nil => exact hn
  | cons op ops ih =>
    refine ⟨fun _ => h op List.mem_cons_self, within_proceed fun _ => ?_⟩
    exact ih fun op' hop => h op' (List.mem_cons_of_mem op hop)

theorem isFresh_method (name : String) (result : TypeRef) (parameters : List Parameter) :
    (method name result parameters).IsFresh := ⟨rfl, rfl⟩

theorem isFresh_constructor (className : String) (parameters : List Parameter) :
    (constructor className parameters).IsFresh := ⟨rfl, rfl⟩

theorem within_vector : vector.Within p := by
  rintro id (_ | ⟨value, _ | _⟩)
  · trivial
  · refine within_builtin fun sizeType => within_builtin fun void => within_builtin fun bool =>
      fun valueText className => within_addOperations ?_ trivial
    simp [constructors, vectorMethods, swap, isFresh_method, isFresh_constructor]
  · trivial

theorem within_map : map.Within p := by
  rintro id (_ | ⟨key, _ | ⟨value, _⟩⟩)
  · trivial
  · trivial
  · refine within_builtin fun sizeType => within_builtin fun void => within_builtin fun bool =>
      fun keyText => within_builtin fun keys => fun className => within_addOperations ?_ trivial
    simp [constructors, mapMethods, isFresh_method, isFresh_constructor]

theorem does_declare {m : Model} (hs : Model.Sound p m) :
    Model.Does p m declare fun _ _ => True := by
  have builtin : ∀ name m, Model.Sound p m →
      Model.Does p m (Model.lookupType .root name .local) fun _ _ => True := fun name m hs =>
    Model.does_lookupType _ name _ hs
  unfold declare
  refine (Model.does_addNamespace hs hs.isTree.knows_root fun _ => by decide).bind
    fun std m h _ => ?_
  have hs := h.sound hs
  refine (Model.does_addTemplate hs (fun _ => by decide) within_vector).bind fun _ m h _ => ?_
  have hs := h.sound hs
  refine (Model.does_addTemplate hs (fun _ => by decide) within_map).bind fun _ m h _ => ?_
  have hs := h.sound hs
  have hfresh : TypeNode.IsFresh p
      { entity := { name := "string" }, kind := .container .classType {} } :=
    { owner := rfl
      members := fun scope h => by cases h; rfl
      isRoot := rfl
      name := fun _ => by decide
      scopePath := fun _ => by decide
      aliasName := nofun
      specialization := rfl
      specializer := nofun }
  refine (Model.does_addTypeWith hs hfresh).bind fun string m h _ => ?_
  have hs := h.sound hs
  refine (builtin _ m hs).bind fun sizeType m h _ => ?_
  have hs := h.sound hs
  refine (builtin _ m hs).bind fun char m h _ => ?_
  have hs := h.sound hs
  refine (builtin _ m hs).bind fun cString m h _ => ?_
  have hs := h.sound hs
  refine (builtin _ m hs).bind fun constCString m h _ => ?_
  have hs := h.sound hs
  refine (builtin _ m hs).bind fun bool m h _ => ?_
  have hs := h.sound hs
  refine (builtin _ m hs).bind fun void m h _ => ?_
  have hs := h.sound hs
  refine (builtin _ m hs).bind fun int m h _ => ?_
  have hs := h.sound hs
  refine .forM hs fun op hop m _ => ?_
  refine (Model.does_addOperation fun _ => ?_).bind fun _ _ _ _ => .pure trivial
  revert op
  simp [stringOperations, constructors, swap, isFresh_method, isFresh_constructor]

end StdTypes

theorem Entity.unattached_of_ofName {name : String} {entity : Entity}
    (h : Entity.ofName name = .ok entity) : entity.owner = none ∧ entity.aliasName = none := by
  unfold Entity.ofName at h
  cases hn : Name.normalize name with
  | error e => simp [hn, bind, Except.bind] at h
  | ok path =>
    simp only [hn, bind, Except.bind, pure, Except.pure, Except.ok.injEq] at h
    subst h
    exact ⟨rfl, rfl⟩

namespace Model

variable {p : Policy} {config : Config} {m : Model}

theorem node_rootOnly (h : rootOnly config = .ok m) (id : TypeId) :
    (id = .root ∧ ∃ entity, Entity.ofName config.rootName = .ok entity ∧ m.node id =
      { entity, kind := .container .namespaceType {}, isRoot := true }) ∨
    id ≠ .root ∧ m.node id = default := by
  unfold rootOnly TypeNode.ofName at h
  cases he : Entity.ofName config.rootName with
  | error e => simp [he, bind, Except.bind] at h
  | ok entity =>
    simp only [he, bind, Except.bind, pure, Except.pure, Except.ok.injEq] at h
    subst h
    by_cases hid : id = .root
    · exact .inl ⟨hid, entity, rfl, by rw [hid]; rfl⟩
    · refine .inr ⟨hid, node_of_not_knows fun hk => hid ?_⟩
      obtain ⟨i⟩ := id
      have hi : i < 1 := hk
      obtain rfl : i = 0 := by omega
      rfl

theorem owner?_rootOnly (h : rootOnly config = .ok m) (id : TypeId) : m.owner? id = none := by
  obtain ⟨-, entity, he, hn⟩ | ⟨-, hn⟩ := node_rootOnly h id
  · rw [owner?, hn, (Entity.unattached_of_ofName he).1]
  · rw [owner?, hn, TypeNode.owner_default]

theorem scope?_rootOnly (h : rootOnly config = .ok m) {id : TypeId} {members : Scope}
    (hs : m.scope? id = some members) : members = {} := by
  obtain ⟨-, entity, ho, hn⟩ | ⟨-, hn⟩ := node_rootOnly h id
  · rw [scope?, hn] at hs
    cases hs
    rfl
  · rw [scope?, hn] at hs
    cases hs

theorem type?_rootOnly (h : rootOnly config = .ok m) (id : TypeId) (name : String) :
    m.type? id name = none := by
  cases ht : m.type? id name with
  | none => rfl
  | some other =>
    obtain ⟨members, hs, hg⟩ := type?_eq_some_iff.mp ht
    rw [scope?_rootOnly h hs] at hg
    cases hg

theorem isTree_rootOnly (h : rootOnly config = .ok m) : m.IsTree where
  root_container := by
    obtain ⟨-, entity, -, hn⟩ | ⟨hr, -⟩ := node_rootOnly h .root
    · rw [hn]
      rfl
    · exact absurd rfl hr
  root_owner := owner?_rootOnly h _
  isRoot_iff id := by
    obtain ⟨hr, entity, -, hn⟩ | ⟨hr, hn⟩ := node_rootOnly h id
    · rw [hn]
      exact ⟨fun _ => hr, fun _ => rfl⟩
    · rw [hn]
      exact ⟨nofun, fun h => absurd h hr⟩
  listed hl := by simp [type?_rootOnly h] at hl
  owned ho := by simp [owner?_rootOnly h] at ho
  owner_known ho := by simp [owner?_rootOnly h] at ho
  acyclic id hid := by
    obtain ⟨owner, ho, -⟩ := Relation.TransGen.head'_iff.mp hid
    simp [Owned, owner?_rootOnly h] at ho

theorem sound_rootOnly (h : rootOnly config = .ok m) : Sound p m where
  isTree := isTree_rootOnly h
  hook hook hh := by
    unfold rootOnly TypeNode.ofName at h
    cases he : Entity.ofName config.rootName with
    | error e => simp [he, bind, Except.bind] at h
    | ok entity =>
      simp only [he, bind, Except.bind, pure, Except.pure, Except.ok.injEq] at h
      subst h
      cases hh
  specializer id specializer hsp := by
    obtain ⟨-, entity, -, hn⟩ | ⟨-, hn⟩ := node_rootOnly h id <;>
    · rw [hn] at hsp
      cases hsp

theorem does_declareBuiltins (hs : Sound p m) (hc : config.Within p) :
    Does p m (declareBuiltins config) fun _ _ => True := by
  unfold declareBuiltins
  have hbasic : ∀ name node, TypeNode.ofName name .basic = .ok node → p.Allows name →
      node.IsFresh p := fun name node hn ha => by
    have hn' : TypeNode.ofName name PlainKind.basic.toTypeKind = .ok node := hn
    exact PlainKind.isFresh_of_ofName hn' ha
  have htypes : Does p m (config.builtinTypes.forM fun name => do
      let _ ← addType .root (← ModelM.ofExcept (TypeNode.ofName name .basic)))
      fun _ _ => True := by
    refine .forM hs fun name hname m hs => .ofExcept_bind fun node hn => ?_
    refine (does_addTypeWith hs (hbasic name node hn (hc.builtinTypes name hname))).bind ?_
    exact fun _ _ _ _ => .pure trivial
  refine htypes.bind fun _ m₁ h₁ _ => ?_
  refine .forM (h₁.sound hs) fun entry hentry m hs => .ofExcept_bind fun node hn => ?_
  have hfresh := hbasic entry.name node hn (hc.builtinAliases entry hentry)
  have hfresh' : (node.mapEntity (·.setExportName entry.exportName)).IsFresh p :=
    { owner := hfresh.owner
      members := hfresh.members
      isRoot := hfresh.isRoot
      name := hfresh.name
      scopePath := hfresh.scopePath
      aliasName := hfresh.aliasName
      specialization := hfresh.specialization
      specializer := hfresh.specializer }
  exact (does_addTypeWith hs hfresh').bind fun _ _ _ _ => .pure trivial

theorem run_of_create (hc : config.Within p) (h : create config = .ok m) :
    ∃ root, rootOnly config = .ok root ∧ Run p root m := by
  unfold create at h
  cases hroot : rootOnly config with
  | error e => simp [hroot, bind, Except.bind] at h
  | ok root =>
    refine ⟨root, rfl, ?_⟩
    have hs : Sound p root := sound_rootOnly hroot
    have hd : Does p root (do
        declareBuiltins config
        if config.stdTypes then StdTypes.declare) fun _ _ => True := by
      refine (does_declareBuiltins hs hc).bind fun _ m' h' _ => ?_
      split
      · exact StdTypes.does_declare (h'.sound hs)
      · exact .pure trivial
    rw [hroot] at h
    dsimp only [bind, Except.bind] at h
    split at h
    · next hok =>
      cases h
      exact hd.run_of_ok hok
    · cases h

end Model

end ApiModel
