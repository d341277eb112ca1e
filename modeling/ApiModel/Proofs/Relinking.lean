import ApiModel.Proofs.Deleting

/-!
What becomes of aliases and typedefs when a type is renamed or moved. The type is taken out of its
scope as if it were deleted, with every other name that the scope has for the bare type, and it is
put back, here or elsewhere, under its own alias only. A typedef of the bare type in its scope is
lost on the way, and so is a typedef of the target whose name is the alias of the type.
-/

namespace ApiModel

theorem Scope.typeAliases_enterType (a : Scope) (e : Entity) (id : TypeId) (key : String) :
    (a.enterType e id).typeAliases.get? key =
      if e.aliasName = some key then some (.raw id) else a.typeAliases.get? key := by
  rw [enterType]
  cases e.aliasName with
  | none => simp
  | some text => simp

namespace Model

variable {m m' m₁ m₂ : Model} {id owner target scope s : TypeId} {name key : String}
  {node : TypeNode} {ty : TypeRef}

theorem attach_eq_ok (hok : attach scope id m = .ok ⟨⟩ m') :
    (m.node scope).isContainer = true ∧ m' = m.linked scope id := by
  by_cases hc : (m.node scope).isContainer = true
  · rw [attach_eq hc] at hok
    cases hok
    exact ⟨hc, rfl⟩
  · obtain ⟨failure, he⟩ := attach_eq_error id (by simpa using hc)
    rw [he] at hok
    cases hok

theorem owner?_linked (hk : m.Knows id) (j : TypeId) :
    (m.linked scope id).owner? j = if j = id then some scope else m.owner? j := by
  have howner := ((repathed_refreshPaths id ((m.claimed scope id).entered scope id)).node j)
    |>.sameShape.owner
  rw [owner?, linked, howner, entered, entity_modifyScope, ← owner?, owner?_claimed hk]

theorem aliasName_modifyEntity {f : Entity → Entity} {id : TypeId}
    (hf : (f (m.node id).entity).aliasName = (m.node id).entity.aliasName) (j : TypeId) :
    ((m.modifyNode id (·.mapEntity f)).node j).entity.aliasName =
      (m.node j).entity.aliasName :=
  rel_modifyNode (R := fun a b => b.entity.aliasName = a.entity.aliasName) (fun _ => rfl) hf j

theorem aliasName_linked (scope id j : TypeId) :
    ((m.linked scope id).node j).entity.aliasName = (m.node j).entity.aliasName := by
  have hrepathed : ∀ {a b : TypeNode}, a.Repathed b → b.entity.aliasName = a.entity.aliasName :=
    fun h => h.apply_eq (g := fun node => node.entity.aliasName) (fun _ _ => rfl) (by simp)
  rw [linked, hrepathed ((repathed_refreshPaths id _).node j), entered, entity_modifyScope]
  exact aliasName_modifyEntity rfl j

theorem typeAliases_linked (hc : (m.node scope).isContainer = true) (hk : m.Knows id) (s : TypeId)
    (key : String) :
    ((m.linked scope id).members s).typeAliases.get? key =
      if s = scope ∧ (m.node id).entity.aliasName = some key then some (.raw id)
      else (m.members s).typeAliases.get? key := by
  by_cases hs : s = scope
  · subst hs
    rw [(sameBindings_linked hc hk).typeAliases, Scope.typeAliases_enterType]
    simp only [true_and]
  · rw [(sameBindings_linked_of_ne hs id).typeAliases, if_neg fun h => hs h.1]

/-- A type takes all that stands for it, bare, out of its scope. -/
theorem typeAliases_released_eq (hm : m.Member id owner) (s : TypeId) (key : String) :
    ((m.released owner id).members s).typeAliases.get? key =
      ((m.members s).typeAliases.get? key).filter fun ty => ¬ (s = owner ∧ ty = .raw id) := by
  by_cases hs : s = owner
  · subst hs
    rw [members_released hm, Scope.removeType, OrderedMap.get?_filter]
    simp only [true_and, ne_eq]
  · rw [released, members, scope?_modifyEntity, ← members, members_modifyScope_of_ne hs]
    cases (m.members s).typeAliases.get? key <;> simp [Option.filter, hs]

/-- The types that were there have their owners and their aliases, and all scopes have the aliases
and typedefs that they had. -/
structure KeepsAliases (m m' : Model) : Prop where
  knows : ∀ {id}, m.Knows id → m'.Knows id
  owner : ∀ {id}, m.Knows id → m'.owner? id = m.owner? id
  aliasName : ∀ {id}, m.Knows id →
    (m'.node id).entity.aliasName = (m.node id).entity.aliasName
  typeAliases : ∀ s key,
    (m'.members s).typeAliases.get? key = (m.members s).typeAliases.get? key

namespace KeepsAliases

theorem refl (m : Model) : m.KeepsAliases m := ⟨id, fun _ => rfl, fun _ => rfl, fun _ _ => rfl⟩

theorem trans (h : m.KeepsAliases m₁) (h' : m₁.KeepsAliases m₂) : m.KeepsAliases m₂ where
  knows hk := h'.knows (h.knows hk)
  owner hk := (h'.owner (h.knows hk)).trans (h.owner hk)
  aliasName hk := (h'.aliasName (h.knows hk)).trans (h.aliasName hk)
  typeAliases s key := (h'.typeAliases s key).trans (h.typeAliases s key)

theorem linked_next (hn : node.IsSimple) (hc : ((m.allocated node).node scope).isContainer = true) :
    m.KeepsAliases ((m.allocated node).linked scope m.next) := by
  have hk : (m.allocated node).Knows m.next := by simp [Knows, next]
  refine ⟨fun {j} hj => ?_, fun {j} hj => ?_, fun {j} hj => ?_, fun s key => ?_⟩
  · have hsize : ((m.allocated node).linked scope m.next).size = m.size + 1 := by
      rw [size_linked, size_allocated]
    rw [Knows] at hj ⊢
    omega
  · have hne := ne_next_of_knows hj
    rw [owner?_linked hk, if_neg hne, owner?, node_allocated_of_ne hne, owner?]
  · rw [aliasName_linked, node_allocated_of_ne (ne_next_of_knows hj)]
  · rw [typeAliases_linked hc hk, node_allocated_next, hn.aliasName,
      members_allocated_of_isBlank hn.toIsBlank]
    simp

end KeepsAliases

theorem keepsAliases_enterNamespace (hok : enterNamespace scope name m = .ok id m') :
    m.KeepsAliases m' := by
  unfold enterNamespace at hok
  split at hok
  · cases hok
    exact .refl m
  · rw [ModelM.bind_apply, ModelM.get_apply] at hok
    dsimp only at hok
    cases hl : m.type? scope name with
    | some listed =>
      rw [hl] at hok
      obtain ⟨_, _, hreq, hok⟩ := ModelM.bind_eq_ok hok
      obtain ⟨rfl, -⟩ := (atomic_requireContainer _ _).post hreq
      cases hok
      exact .refl m
    | none =>
      rw [hl] at hok
      obtain ⟨node, _, hnode, hok⟩ := ModelM.bind_eq_ok hok
      cases hn : TypeNode.ofName name PlainKind.namespaceType.toTypeKind with
      | error failure =>
        rw [hn] at hnode
        cases hnode
      | ok node' =>
        rw [hn] at hnode
        cases hnode
        have hnew : allocate node m = .ok m.next (m.allocated node) := rfl
        rw [ModelM.bind_apply, hnew] at hok
        obtain ⟨_, _, hattach, hok⟩ := ModelM.bind_eq_ok hok
        cases hok
        obtain ⟨hc, rfl⟩ := attach_eq_ok hattach
        exact .linked_next (PlainKind.isSimple_of_ofName hn) hc

theorem keepsAliases_walk {parts : List String}
    (hok : parts.foldlM enterNamespace scope m = .ok id m') : m.KeepsAliases m' := by
  induction parts generalizing scope m with
  | nil =>
    cases hok
    exact .refl _
  | cons part parts ih =>
    rw [List.foldlM_cons] at hok
    obtain ⟨_, _, hstep, hok⟩ := ModelM.bind_eq_ok hok
    exact (keepsAliases_enterNamespace hstep).trans (ih hok)

/-- The second model is the first with the type taken from its owner to the target, possibly under
another name. -/
inductive Relinked (m : Model) (id owner target : TypeId) : Model → Prop
  | moved : Relinked m id owner target ((m.released owner id).linked target id)
  | renamed (name : String) :
      Relinked m id owner target (((m.released owner id).named id name).linked target id)

/-- The whole of what moving or renaming a type does to aliases and typedefs. -/
theorem Relinked.typeAliases (h : m.Relinked id owner target m') (hm : m.Member id owner)
    (hc : (m.node target).isContainer = true) (s : TypeId) (key : String) :
    (m'.members s).typeAliases.get? key =
      if s = target ∧ (m.node id).entity.aliasName = some key then some (.raw id)
      else ((m.members s).typeAliases.get? key).filter fun ty => ¬ (s = owner ∧ ty = .raw id) := by
  have hk : (m.released owner id).Knows id := by simpa using knows_of_owner hm.1
  have halias : ((m.released owner id).node id).entity.aliasName =
      (m.node id).entity.aliasName := by
    rw [entity_released_self (knows_of_owner hm.1)]
    rfl
  cases h with
  | moved => rw [typeAliases_linked (by simpa using hc) hk, halias, typeAliases_released_eq hm]
  | renamed name =>
    have hmembers : ((m.released owner id).named id name).members s =
        (m.released owner id).members s := by
      rw [named, members, scope?_modifyEntity, ← members]
    have hnamed : (((m.released owner id).named id name).node id).entity.aliasName =
        ((m.released owner id).node id).entity.aliasName := aliasName_modifyEntity rfl id
    rw [typeAliases_linked (by simpa [named] using hc) (by simpa using hk), hnamed, hmembers,
      halias, typeAliases_released_eq hm]

theorem Relinked.owner_eq (h : m.Relinked id owner target m') (hm : m.Member id owner) :
    m'.owner? id = some target := by
  have hk : (m.released owner id).Knows id := by simpa using knows_of_owner hm.1
  cases h with
  | moved => rw [owner?_linked hk, if_pos rfl]
  | renamed name => rw [owner?_linked (by simpa using hk), if_pos rfl]

theorem moveType_eq_ok (hok : moveType id scope m = .ok ⟨⟩ m') :
    ∃ owner, m.Member id owner ∧ (m.node scope).isContainer = true ∧
      m.Relinked id owner scope m' := by
  obtain ⟨_, _, hreq, hok⟩ := ModelM.bind_eq_ok hok
  obtain ⟨rfl, hc⟩ := (atomic_requireContainer _ _).post hreq
  rw [ModelM.bind_apply, ModelM.get_apply] at hok
  dsimp only at hok
  split at hok
  · cases hok
  · obtain ⟨_, _, hfree, hok⟩ := ModelM.bind_eq_ok hok
    obtain rfl := (atomic_requireFree _ _ _).post hfree
    obtain ⟨_, _, hdetach, hok⟩ := ModelM.bind_eq_ok hok
    obtain ⟨owner, hm, rfl⟩ := (atomic_detach id).post hdetach
    rw [(attach_eq_ok hok).2]
    exact ⟨owner, hm, hc, .moved⟩

theorem relink_eq_ok (hok : (do
      requireFree target name id
      detach id
      modify fun m : Model => m.modifyNode id (·.mapEntity (·.setName name))
      attach target id : ModelM Unit) m = .ok ⟨⟩ m') :
    ∃ owner, m.Member id owner ∧ (m.node target).isContainer = true ∧
      m' = ((m.released owner id).named id name).linked target id := by
  obtain ⟨_, _, hfree, hok⟩ := ModelM.bind_eq_ok hok
  obtain rfl := (atomic_requireFree _ _ _).post hfree
  obtain ⟨_, _, hdetach, hok⟩ := ModelM.bind_eq_ok hok
  obtain ⟨owner, hm, rfl⟩ := (atomic_detach id).post hdetach
  rw [ModelM.bind_apply, ModelM.modify_apply] at hok
  obtain ⟨hc, he⟩ := attach_eq_ok hok
  exact ⟨owner, hm, by simpa using hc, he⟩

theorem renameType_eq_ok (hok : renameType id name m = .ok ⟨⟩ m') :
    ∃ m₁ owner target, m.KeepsAliases m₁ ∧ m₁.Member id owner ∧
      (m₁.node target).isContainer = true ∧ m₁.Relinked id owner target m' := by
  unfold renameType at hok
  obtain ⟨path, m₀, hpath, hok⟩ := ModelM.bind_eq_ok hok
  obtain rfl : m = m₀ := by
    cases hn : Name.normalize name <;> rw [hn] at hpath <;> cases hpath
    rfl
  dsimp only at hok
  split at hok
  · rw [ModelM.bind_apply, ModelM.get_apply] at hok
    dsimp only at hok
    cases ho : m.owner? id with
    | none =>
      rw [ho] at hok
      cases hok
    | some target =>
      rw [ho] at hok
      obtain ⟨owner, hm, hc, he⟩ := relink_eq_ok hok
      rw [he]
      exact ⟨m, owner, target, .refl m, hm, hc, .renamed (Path.baseName path)⟩
  · obtain ⟨target, m₁, hwalk, hok⟩ := ModelM.bind_eq_ok hok
    obtain ⟨owner, hm, hc, he⟩ := relink_eq_ok hok
    obtain ⟨path', m₂, hpath', hwalk⟩ := ModelM.bind_eq_ok hwalk
    obtain rfl : m = m₂ := by
      cases hn : Name.normalize (Path.parent path) <;> rw [hn] at hpath' <;> cases hpath'
      rfl
    rw [he]
    exact ⟨m₁, owner, target, keepsAliases_walk hwalk, hm, hc, .renamed (Path.baseName path)⟩

/-- A scope has no longer what it had under the name when the type came from its owner to the
target: the type's own alias took the name, or it was a name of the owner for the bare type. -/
def LosesAlias (m : Model) (id owner target s : TypeId) (key : String) (ty : TypeRef) : Prop :=
  if s = target ∧ (m.node id).entity.aliasName = some key then ty ≠ .raw id
  else s = owner ∧ ty = .raw id

theorem Relinked.kept_iff (h : m.Relinked id owner target m') (hm : m.Member id owner)
    (hc : (m.node target).isContainer = true)
    (hget : (m.members s).typeAliases.get? key = some ty) :
    (m'.members s).typeAliases.get? key = some ty ↔ ¬ m.LosesAlias id owner target s key ty := by
  rw [h.typeAliases hm hc, LosesAlias, hget]
  split
  · simp [eq_comm]
  · by_cases hlost : s = owner ∧ ty = .raw id <;> simp [Option.filter, hlost]

/-- When a type is renamed or moved, the other names of all scopes stay what they were, but for the
names that its scope had for the bare type, unless its own alias is entered again, and for the name
in the target scope that is its alias. -/
theorem aliases_kept_iff (hk : m.Knows id)
    (hok : renameType id name m = .ok ⟨⟩ m' ∨ moveType id scope m = .ok ⟨⟩ m') :
    ∃ owner target, m.owner? id = some owner ∧ m'.owner? id = some target ∧
      ∀ s key ty, (m.members s).typeAliases.get? key = some ty →
        ((m'.members s).typeAliases.get? key = some ty ↔
          ¬ m.LosesAlias id owner target s key ty) := by
  obtain ⟨m₁, owner, target, hkept, hm, hc, hrelinked⟩ : ∃ m₁ owner target, m.KeepsAliases m₁ ∧
      m₁.Member id owner ∧ (m₁.node target).isContainer = true ∧
        m₁.Relinked id owner target m' := by
    rcases hok with hok | hok
    · exact renameType_eq_ok hok
    · obtain ⟨owner, hm, hc, hrelinked⟩ := moveType_eq_ok hok
      exact ⟨m, owner, scope, .refl m, hm, hc, hrelinked⟩
  refine ⟨owner, target, (hkept.owner hk).symm.trans hm.1, hrelinked.owner_eq hm,
    fun s key ty hget => ?_⟩
  rw [← hkept.typeAliases] at hget
  rw [hrelinked.kept_iff hm hc hget, LosesAlias, LosesAlias, hkept.aliasName hk]

/-- A class `A` keeps the typedef `P` for `A*` when it is renamed. -/
theorem pointer_typedef_kept : ∃ m m', Reachable .free m ∧ m.Knows ⟨1⟩ ∧
    renameType ⟨1⟩ "B" m = .ok ⟨⟩ m' ∧
    (m.members .root).typeAliases.get? "P" = some (.pointer (.raw ⟨1⟩)) ∧
    (m'.members .root).typeAliases.get? "P" = some (.pointer (.raw ⟨1⟩)) := by
  have hk : (bare.afterAll pointerTypedef).Knows ⟨1⟩ := by unfold Knows; decide +kernel
  have hget : ((bare.afterAll pointerTypedef).members .root).typeAliases.get? "P" =
      some (.pointer (.raw ⟨1⟩)) := by decide +kernel
  obtain ⟨m', hok⟩ : ∃ m', renameType ⟨1⟩ "B" (bare.afterAll pointerTypedef) = .ok ⟨⟩ m' := by
    obtain ⟨⟨⟩, hok⟩ := sizeAfterFailure_eq_none (m := bare.afterAll pointerTypedef)
      (x := renameType ⟨1⟩ "B") (by decide +kernel)
    exact ⟨_, hok⟩
  have hdone : renameType ⟨1⟩ "B" (bare.afterAll pointerTypedef) = .ok ⟨⟩ m' ∨
      moveType ⟨1⟩ .root (bare.afterAll pointerTypedef) = .ok ⟨⟩ m' := .inl hok
  obtain ⟨owner, target, -, -, hkept⟩ := aliases_kept_iff hk hdone
  refine ⟨_, _, reachable_pointerTypedef, hk, hok, hget, (hkept _ _ _ hget).mpr ?_⟩
  have hlayer : TypeRef.pointer (.raw ⟨1⟩) ≠ .raw ⟨1⟩ := nofun
  have halias : ((bare.afterAll pointerTypedef).node ⟨1⟩).entity.aliasName = none := by
    decide +kernel
  simp [LosesAlias, hlayer, halias]

/-- A class `A` loses the typedef `X` for it when it is renamed. -/
theorem bare_typedef_lost : ∃ m m', Reachable .typedefsOwn m ∧ renameType ⟨1⟩ "B" m = .ok ⟨⟩ m' ∧
    (m.members .root).typeAliases.get? "X" = some (.raw ⟨1⟩) ∧
    (m'.members .root).typeAliases.get? "X" = none := by
  obtain ⟨⟨⟩, hok⟩ := sizeAfterFailure_eq_none (m := bareWithTypedef) (x := renameType ⟨1⟩ "B")
    (by decide +kernel)
  exact ⟨_, _, reachable_bareWithTypedef, hok, by decide +kernel, by decide +kernel⟩

end Model

end ApiModel
