import ApiModel.Proofs.Refresh

/-!
Putting nodes into scopes and taking them out, as changes of a whole model, and why the types stay a
tree through each of them.
-/

namespace ApiModel

structure TypeNode.IsBlank (node : TypeNode) : Prop where
  owner : node.entity.owner = none
  members : ∀ scope, node.scope? = some scope → scope = {}
  isRoot : node.isRoot = false

namespace Model

open Relation

variable {m : Model} {id scope owner : TypeId}

/-- The node has the scope as its owner, but the scope does not list it. -/
def claimed (m : Model) (scope id : TypeId) : Model :=
  m.modifyNode id (·.mapEntity (·.setOwner (some scope) (m.scopePath scope)))

def entered (m : Model) (scope id : TypeId) : Model :=
  m.modifyNode scope (·.mapScope (·.enterType (m.node id).entity id))

def linked (m : Model) (scope id : TypeId) : Model :=
  refreshPaths id ((m.claimed scope id).entered scope id)

def released (m : Model) (owner id : TypeId) : Model :=
  (m.modifyNode owner (·.mapScope (·.removeType (m.node id).name id))).modifyNode id
    (·.mapEntity (·.setOwner none ""))

def named (m : Model) (id : TypeId) (name : String) : Model :=
  m.modifyNode id (·.mapEntity (·.setName name))

theorem attach_eq (h : (m.node scope).isContainer = true) :
    attach scope id m = .ok () (m.linked scope id) := by
  simp [attach, requireContainer, linked, claimed, entered, ModelM.bind_apply, h]

theorem attach_eq_error (id : TypeId) (h : (m.node scope).isContainer = false) :
    ∃ failure, attach scope id m = .error failure (m.claimed scope id) := by
  simp [attach, requireContainer, claimed, ModelM.bind_apply, h]

theorem detach_eq (ho : m.owner? id = some owner) (h : (m.node owner).isContainer = true) :
    detach id m = .ok () (m.released owner id) := by
  simp [detach, requireContainer, released, ModelM.bind_apply, ho, h]

theorem detach_eq_error (h : ∀ owner, ¬ m.Member id owner) :
    ∃ failure, detach id m = .error failure m := by
  cases ho : m.owner? id with
  | none => simp [detach, ModelM.bind_apply, ho]
  | some owner =>
    have hc : (m.node owner).isContainer = false := by
      simpa using fun hc => h owner ⟨ho, hc⟩
    simp [detach, requireContainer, ModelM.bind_apply, ho, hc]

theorem IsTree.allocated {node : TypeNode} (h : m.IsTree) (hn : node.IsBlank) :
    (m.allocated node).IsTree := by
  have howner : ∀ j, (m.allocated node).owner? j = m.owner? j := fun j => by
    by_cases hj : j = m.next
    · rw [hj, owner?, owner?, node_allocated_next, hn.owner, node_of_not_knows not_knows_next]
      rfl
    · rw [owner?, owner?, node_allocated_of_ne hj]
  have htype : ∀ s name, (m.allocated node).type? s name = m.type? s name := fun s name => by
    by_cases hs : s = m.next
    · subst hs
      have hnone : m.type? m.next name = none := by
        simp [type?, scope?, node_of_not_knows not_knows_next]
      rw [hnone, type?, scope?, node_allocated_next]
      cases hsc : node.scope? with
      | none => rfl
      | some scope => rw [hn.members scope hsc]; rfl
    · simp [type?, scope?, node_allocated_of_ne hs]
  have hsame : ∀ {j}, m.Knows j → (m.allocated node).node j = m.node j := fun hk =>
    node_allocated_of_ne (ne_next_of_knows hk)
  constructor
  · rw [hsame h.knows_root]
    exact h.root_container
  · rw [howner]
    exact h.root_owner
  · intro j
    by_cases hj : j = m.next
    · have hr : TypeId.root ≠ m.next := ne_next_of_knows h.knows_root
      simp [hj, hn.isRoot, hr.symm]
    · rw [node_allocated_of_ne hj, h.isRoot_iff]
  · intro s name j hl
    rw [htype] at hl
    have hl' := h.listed hl
    rw [hsame (knows_of_owner hl'.2), howner]
    exact hl'
  · intro j s ho hc
    rw [howner] at ho
    rw [hsame (h.owner_known ho)] at hc
    rw [htype, hsame (knows_of_owner ho)]
    exact h.owned ho hc
  · intro j s ho
    rw [howner] at ho
    exact (h.owner_known ho).allocated
  · exact h.acyclic.mono fun a b hab => by rwa [Owned, howner] at hab

section Released

theorem entity_released_of_ne {j : TypeId} (h : j ≠ id) :
    ((m.released owner id).node j).entity = (m.node j).entity := by
  rw [released, node_modifyNode_of_ne _ h, entity_modifyScope]

theorem entity_released_self (hk : m.Knows id) :
    ((m.released owner id).node id).entity = (m.node id).entity.setOwner none "" := by
  rw [released, entity_modifyEntity_self _ (by simpa using hk), entity_modifyScope]

theorem name_released (j : TypeId) :
    ((m.released owner id).node j).name = (m.node j).name := by
  by_cases hj : j = id
  · subst hj
    by_cases hk : m.Knows j
    · rw [TypeNode.name, entity_released_self hk]
      rfl
    · rw [node_of_not_knows hk, node_of_not_knows (by simpa [released] using hk)]
  · rw [TypeNode.name, entity_released_of_ne hj, TypeNode.name]

theorem owner?_released (hk : m.Knows id) (j : TypeId) :
    (m.released owner id).owner? j = if j = id then none else m.owner? j := by
  by_cases hj : j = id
  · subst hj
    rw [owner?, entity_released_self hk, if_pos rfl]
    rfl
  · rw [owner?, entity_released_of_ne hj, if_neg hj, owner?]

@[simp] theorem isContainer_released (j : TypeId) :
    ((m.released owner id).node j).isContainer = (m.node j).isContainer := by simp [released]

@[simp] theorem isRoot_released (j : TypeId) :
    ((m.released owner id).node j).isRoot = (m.node j).isRoot := by simp [released]

@[simp] theorem knows_released (j : TypeId) : (m.released owner id).Knows j ↔ m.Knows j := by
  simp [released]

theorem type?_released (hl : m.type? owner (m.node id).name = some id) (s : TypeId)
    (name : String) : (m.released owner id).type? s name =
      if s = owner ∧ name = (m.node id).name then none else m.type? s name := by
  obtain ⟨scope, hscope, hg⟩ := type?_eq_some_iff.mp hl
  rw [released, type?_modifyEntity]
  by_cases hs : s = owner
  · subst hs
    simp only [type?, scope?_modifyScope_self, hscope, Scope.removeType, hg, if_true,
      Option.map_some, Option.bind_some, OrderedMap.get?_erase, true_and, eq_comm]
  · rw [type?, scope?_modifyScope_of_ne _ hs, if_neg fun h => hs h.1, type?]

end Released

theorem IsTree.released (h : m.IsTree) (hm : m.Member id owner) : (m.released owner id).IsTree := by
  have hk : m.Knows id := knows_of_owner hm.1
  have hl := h.owned hm.1 hm.2
  have hroot : TypeId.root ≠ id := fun e => by
    have ho : m.owner? id = some owner := hm.1
    rw [← e, h.root_owner] at ho
    cases ho
  constructor
  · rw [isContainer_released]
    exact h.root_container
  · rw [owner?_released hk, if_neg hroot]
    exact h.root_owner
  · simpa using h.isRoot_iff
  · intro s name j hlj
    rw [type?_released hl] at hlj
    split at hlj
    · cases hlj
    · next hne =>
      obtain ⟨hname, ho⟩ := h.listed hlj
      have hj : j ≠ id := by
        rintro rfl
        exact hne ⟨Option.some.inj (ho.symm.trans hm.1), hname.symm⟩
      rw [name_released, owner?_released hk, if_neg hj]
      exact ⟨hname, ho⟩
  · intro j s ho hc
    rw [owner?_released hk] at ho
    split at ho
    · cases ho
    · next hj =>
      rw [isContainer_released] at hc
      have hlj := h.owned ho hc
      rw [type?_released hl, name_released, if_neg, hlj]
      rintro ⟨rfl, hname⟩
      rw [hname, hl] at hlj
      exact hj (Option.some.inj hlj).symm
  · intro j s ho
    rw [owner?_released hk] at ho
    split at ho
    · cases ho
    · exact (knows_released s).mpr (h.owner_known ho)
  · refine h.acyclic.mono fun a b hab => ?_
    rw [Owned, owner?_released hk] at hab
    split at hab
    · cases hab
    · exact hab

/-- A name that only the released node may have had in a scope is free there now. -/
theorem type?_released_eq_none (h : m.IsTree) (hm : m.Member id owner) {s : TypeId} {name : String}
    (hfree : ∀ other, m.type? s name = some other → other = id) :
    (m.released owner id).type? s name = none := by
  rw [type?_released (h.owned hm.1 hm.2)]
  split
  · rfl
  · next hne =>
    cases ht : m.type? s name with
    | none => rfl
    | some other =>
      obtain rfl := hfree other ht
      obtain ⟨hname, ho⟩ := h.listed ht
      exact absurd ⟨Owned.unique ho hm.1, hname.symm⟩ hne

theorem not_inside_released (hk : m.Knows id) {s : TypeId} (hi : ¬ m.Inside s id) :
    ¬ (m.released owner id).Inside s id := fun h => by
  refine hi (ReflTransGen.mono (fun a b hab => ?_) _ _ h)
  rw [Owned, owner?_released hk] at hab
  split at hab
  · cases hab
  · exact hab

@[simp] theorem owner?_named (id : TypeId) (name : String) (j : TypeId) :
    (m.named id name).owner? j = m.owner? j := by
  by_cases hj : j = id
  · subst hj
    by_cases hk : m.Knows j
    · rw [owner?, named, entity_modifyEntity_self _ hk, owner?]
      rfl
    · rw [owner?, named, node_modifyEntity_of_not_knows _ _ hk, owner?]
  · rw [owner?, named, node_modifyNode_of_ne _ hj, owner?]

@[simp] theorem type?_named (id : TypeId) (name : String) (s : TypeId) (name' : String) :
    (m.named id name).type? s name' = m.type? s name' := by simp [named]

@[simp] theorem knows_named (id : TypeId) (name : String) (j : TypeId) :
    (m.named id name).Knows j ↔ m.Knows j := by simp [named]

theorem name_named (hk : m.Knows id) (name : String) : ((m.named id name).node id).name = name := by
  rw [TypeNode.name, named, entity_modifyEntity_self _ hk]
  rfl

theorem inside_named (id : TypeId) (name : String) : (m.named id name).Inside = m.Inside := by
  have h : (m.named id name).Owned = m.Owned := by
    funext a b
    simp [Owned]
  rw [Inside, Inside, h]

theorem IsTree.named (h : m.IsTree) (ho : m.owner? id = none) (name : String) :
    (m.named id name).IsTree := by
  have hname : ∀ {j s}, m.owner? j = some s → ((m.named id name).node j).name = (m.node j).name :=
    fun {j s} hj => by
      rw [Model.named, node_modifyNode_of_ne]
      rintro rfl
      rw [ho] at hj
      cases hj
  constructor
  · simpa [Model.named] using h.root_container
  · rw [owner?_named]
    exact h.root_owner
  · simpa [Model.named] using h.isRoot_iff
  · intro s n j hl
    rw [Model.named, type?_modifyEntity] at hl
    obtain ⟨hn, hj⟩ := h.listed hl
    rw [hname hj, owner?_named]
    exact ⟨hn, hj⟩
  · intro j s hj hc
    rw [owner?_named] at hj
    rw [Model.named, isContainer_modifyEntity] at hc
    rw [hname hj, Model.named, type?_modifyEntity]
    exact h.owned hj hc
  · intro j s hj
    rw [owner?_named] at hj
    exact (knows_modifyNode _ _).mpr (h.owner_known hj)
  · exact h.acyclic.mono fun a b hab => by rwa [Owned, owner?_named] at hab

theorem owner?_claimed (hk : m.Knows id) (j : TypeId) :
    (m.claimed scope id).owner? j = if j = id then some scope else m.owner? j := by
  by_cases hj : j = id
  · subst hj
    rw [owner?, claimed, entity_modifyEntity_self _ hk, if_pos rfl]
    rfl
  · rw [owner?, claimed, node_modifyNode_of_ne _ hj, if_neg hj, owner?]

theorem name_claimed (j : TypeId) : ((m.claimed scope id).node j).name = (m.node j).name := by
  by_cases hj : j = id
  · subst hj
    by_cases hk : m.Knows j
    · rw [TypeNode.name, claimed, entity_modifyEntity_self _ hk]
      rfl
    · rw [claimed, node_modifyEntity_of_not_knows _ _ hk]
  · rw [claimed, node_modifyNode_of_ne _ hj]

/-- No walk along owners runs in a circle when a node gets an owner that does not lie inside it. -/
theorem acyclic_claimed (h : Acyclic m.Owned) (hk : m.Knows id) (hi : ¬ m.Inside scope id) :
    Acyclic (m.claimed scope id).Owned := by
  refine h.add_edge (x := id) (y := scope) (fun a b hab => ?_) hi
  rw [Owned, owner?_claimed hk] at hab
  split at hab
  · next ha => exact .inr ⟨ha, (Option.some.inj hab).symm⟩
  · exact .inl hab

theorem IsTree.claimed (h : m.IsTree) (hk : m.Knows id) (hr : id ≠ .root)
    (ho : m.owner? id = none) (hs : m.Knows scope) (hc : (m.node scope).isContainer = false)
    (hi : ¬ m.Inside scope id) : (m.claimed scope id).IsTree := by
  constructor
  · simpa [Model.claimed] using h.root_container
  · rw [owner?_claimed hk, if_neg hr.symm]
    exact h.root_owner
  · simpa [Model.claimed] using h.isRoot_iff
  · intro s n j hl
    rw [Model.claimed, type?_modifyEntity] at hl
    rw [name_claimed, owner?_claimed hk, if_neg (h.ne_of_listed ho hl)]
    exact h.listed hl
  · intro j s hj hcs
    rw [Model.claimed, isContainer_modifyEntity] at hcs
    rw [owner?_claimed hk] at hj
    split at hj
    · obtain rfl := Option.some.inj hj
      simp [hc] at hcs
    · rw [name_claimed, Model.claimed, type?_modifyEntity]
      exact h.owned hj hcs
  · intro j s hj
    rw [owner?_claimed hk] at hj
    refine (knows_modifyNode _ _).mpr ?_
    split at hj
    · obtain rfl := Option.some.inj hj
      exact hs
    · exact h.owner_known hj
  · exact acyclic_claimed h.acyclic hk hi

theorem types_enterType (s : Scope) (e : Entity) (id : TypeId) :
    (s.enterType e id).types = s.types.insert e.name id := by
  unfold Scope.enterType
  cases e.aliasName <;> rfl

theorem type?_entered (hc : (m.node scope).isContainer = true) (s : TypeId) (name : String) :
    (m.entered scope id).type? s name =
      if s = scope ∧ name = (m.node id).name then some id else m.type? s name := by
  obtain ⟨sc, hsc⟩ := isContainer_iff.mp hc
  by_cases hs : s = scope
  · subst hs
    simp only [type?, entered, scope?_modifyScope_self, hsc, Option.map_some, Option.bind_some,
      types_enterType, OrderedMap.get?_insert, true_and, eq_comm, TypeNode.name]
  · rw [type?, entered, scope?_modifyScope_of_ne _ hs, if_neg fun h => hs h.1, type?]

theorem IsTree.entered_claimed (h : m.IsTree) (hk : m.Knows id) (hr : id ≠ .root)
    (ho : m.owner? id = none) (hc : (m.node scope).isContainer = true)
    (hfree : m.type? scope (m.node id).name = none) (hi : ¬ m.Inside scope id) :
    ((m.claimed scope id).entered scope id).IsTree := by
  have howner : ∀ j, ((m.claimed scope id).entered scope id).owner? j =
      if j = id then some scope else m.owner? j := fun j => by
    rw [← owner?_claimed hk, owner?, entered, entity_modifyScope, owner?]
  have hname : ∀ j, (((m.claimed scope id).entered scope id).node j).name = (m.node j).name :=
    fun j => by
      rw [TypeNode.name, entered, entity_modifyScope]
      exact name_claimed j
  have htype : ∀ s name, ((m.claimed scope id).entered scope id).type? s name =
      if s = scope ∧ name = (m.node id).name then some id else m.type? s name := fun s name => by
    rw [type?_entered (by simpa [Model.claimed] using hc), name_claimed, Model.claimed,
      type?_modifyEntity]
  constructor
  · simpa [Model.claimed, entered] using h.root_container
  · rw [howner, if_neg hr.symm]
    exact h.root_owner
  · simpa [Model.claimed, entered] using h.isRoot_iff
  · intro s n j hl
    rw [htype] at hl
    rw [hname, howner]
    split at hl
    · next hsn =>
      obtain rfl := Option.some.inj hl
      exact ⟨hsn.2.symm, by rw [if_pos rfl, hsn.1]⟩
    · rw [if_neg (h.ne_of_listed ho hl)]
      exact h.listed hl
  · intro j s hj hcs
    rw [entered, isContainer_modifyScope, Model.claimed, isContainer_modifyEntity] at hcs
    rw [howner] at hj
    rw [htype, hname]
    split at hj
    · next hji =>
      obtain rfl := Option.some.inj hj
      rw [if_pos ⟨rfl, by rw [hji]⟩, hji]
    · have hlj := h.owned hj hcs
      rw [if_neg, hlj]
      rintro ⟨rfl, hn⟩
      rw [hn, hfree] at hlj
      cases hlj
  · intro j s hj
    rw [howner] at hj
    have hks : m.Knows s := by
      split at hj
      · obtain rfl := Option.some.inj hj
        exact knows_of_isContainer hc
      · exact h.owner_known hj
    simpa [entered, Model.claimed] using hks
  · refine (acyclic_claimed h.acyclic hk hi).mono fun a b hab => ?_
    rwa [Owned, howner, ← owner?_claimed hk] at hab

theorem IsTree.linked (h : m.IsTree) (hk : m.Knows id) (hr : id ≠ .root)
    (ho : m.owner? id = none) (hc : (m.node scope).isContainer = true)
    (hfree : m.type? scope (m.node id).name = none) (hi : ¬ m.Inside scope id) :
    (m.linked scope id).IsTree := by
  have ht := h.entered_claimed hk hr ho hc hfree hi
  exact ht.congr (repathed_refreshPaths id _).sameShape

end Model

end ApiModel
