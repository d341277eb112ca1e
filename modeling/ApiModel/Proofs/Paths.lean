import ApiModel.Proofs.Operations
import ApiModel.Proofs.Reachable

/-!
Paths are written into every type and member, and written anew below each scope that is renamed or
moved. In every reachable model they agree with the tree for all scopes but the topmost ones of
subtrees that were taken out; those get right again when the subtree is put back in.
-/

namespace ApiModel

open Relation

namespace Scope

variable {s : Scope} {e : Entity}

@[simp] theorem entities_enterType (s : Scope) (entity : Entity) (id : TypeId) :
    (s.enterType entity id).entities = s.entities := by
  unfold enterType
  split <;> rfl

@[simp] theorem entities_use (s : Scope) (id : TypeId) : (s.use id).entities = s.entities := by
  unfold use
  split <;> rfl

theorem mem_entities : e ∈ s.entities ↔ (∃ op ∈ s.operations.toList, op.entity = e) ∨
    (∃ c ∈ s.constants.values, c.entity = e) ∨ ∃ a ∈ s.attributes.values, a.entity = e := by
  simp only [entities, List.mem_append, List.mem_map, or_assoc]

theorem mem_entities_of_operation {libraryPrefix : String} {op : Operation}
    (h : e ∈ { s with operations := s.operations.insert libraryPrefix op }.entities) :
    e ∈ s.entities ∨ e.owner = op.owner ∧ e.scopePath = op.entity.scopePath := by
  obtain ⟨op', hop, rfl⟩ | h := mem_entities.mp h
  · obtain rfl | hop := OperationTable.mem_toList_insert hop
    · have hd := s.operations.sameDeclaration_stored libraryPrefix op
      exact .inr ⟨hd.owner, hd.scopePath⟩
    · exact .inl (mem_entities.mpr (.inl ⟨op', hop, rfl⟩))
  · exact .inl (mem_entities.mpr (.inr h))

theorem mem_entities_of_constant {c : Constant}
    (h : e ∈ { s with constants := s.constants.insert c.name c }.entities) :
    e ∈ s.entities ∨ e = c.entity := by
  obtain h | ⟨c', hc, rfl⟩ | h := mem_entities.mp h
  · exact .inl (mem_entities.mpr (.inl h))
  · obtain rfl | hc := OrderedMap.mem_values_insert hc
    · exact .inr rfl
    · exact .inl (mem_entities.mpr (.inr (.inl ⟨c', hc, rfl⟩)))
  · exact .inl (mem_entities.mpr (.inr (.inr h)))

theorem mem_entities_of_attribute {a : Attribute}
    (h : e ∈ { s with attributes := s.attributes.insert a.name a }.entities) :
    e ∈ s.entities ∨ e = a.entity := by
  obtain h | h | ⟨a', ha, rfl⟩ := mem_entities.mp h
  · exact .inl (mem_entities.mpr (.inl h))
  · exact .inl (mem_entities.mpr (.inr (.inl h)))
  · obtain rfl | ha := OrderedMap.mem_values_insert ha
    · exact .inr rfl
    · exact .inl (mem_entities.mpr (.inr (.inr ⟨a', ha, rfl⟩)))

end Scope

namespace Model

variable {p : Policy} {m m' : Model} {s id scope owner : TypeId}

/-- Members belong to the scope that holds them, and carry its path if the scope is the root or
belongs to another scope. -/
structure Coherent (m : Model) : Prop where
  owned : ∀ s members, m.scope? s = some members → ∀ e ∈ members.entities, e.owner = some s
  placed : ∀ s, s = .root ∨ m.owner? s ≠ none → m.Placed s

theorem Placed.transfer (h : m.Placed s) (hpath : m'.scopePath s = m.scopePath s)
    (hscope : ∀ members', m'.scope? s = some members' → ∃ members, m.scope? s = some members ∧
      ∀ e ∈ members'.entities, e ∈ members.entities ∨ e.scopePath = m.scopePath s)
    (htypes : ∀ id, m'.Owned id s → (m'.node id).entity.scopePath = m.scopePath s ∨
      m.Owned id s ∧ (m'.node id).entity.scopePath = (m.node id).entity.scopePath) :
    m'.Placed s := by
  intro members' hm'
  obtain ⟨members, hm, hents⟩ := hscope members' hm'
  obtain ⟨hids, hpaths⟩ := h members hm
  rw [hpath]
  refine ⟨fun id hid => ?_, fun e he => ?_⟩
  · obtain hp | ⟨ho, hp⟩ := htypes id hid
    · exact hp
    · exact hp.trans (hids id ho)
  · obtain he | hp := hents e he
    · exact hpaths e he
    · exact hp

theorem scope?_entered_claimed {members : Scope}
    (h : ((m.claimed scope id).entered scope id).scope? s = some members) :
    ∃ members₀, m.scope? s = some members₀ ∧ members.entities = members₀.entities := by
  rw [entered] at h
  by_cases hs : s = scope
  · subst hs
    rw [scope?_modifyScope_self, claimed, scope?_modifyEntity] at h
    obtain ⟨members₀, hm, rfl⟩ := Option.map_eq_some_iff.mp h
    exact ⟨members₀, hm, Scope.entities_enterType ..⟩
  · rw [scope?_modifyScope_of_ne _ hs, claimed, scope?_modifyEntity] at h
    exact ⟨members, h, rfl⟩

/-- Writing paths anew leaves the owners of members alone. -/
theorem Repathed.map_owner_entities {members : Scope} (h : m.Repathed m')
    (hs : m'.scope? s = some members) :
    ∃ members₀, m.scope? s = some members₀ ∧
      members₀.entities.map Entity.owner = members.entities.map Entity.owner := by
  have howners := (h.node s).map_scope?_eq
    (g := fun members => members.entities.map Entity.owner) fun path members => by
      simp [Scope.entities_setMemberPaths, Function.comp_def, Entity.setScopePath, Entity.touch]
  rw [show (m'.node s).scope? = some members from hs, Option.map_some] at howners
  exact Option.map_eq_some_iff.mp howners.symm

namespace Coherent

theorem modifyScope {f : Scope → Scope} (h : m.Coherent)
    (hf : ∀ members, ∀ e ∈ (f members).entities,
      e ∈ members.entities ∨ e.owner = some id ∧ e.scopePath = m.scopePath id) :
    (m.modifyNode id (·.mapScope f)).Coherent := by
  have hscope : ∀ s members', (m.modifyNode id (·.mapScope f)).scope? s = some members' →
      ∃ members, m.scope? s = some members ∧ ∀ e ∈ members'.entities,
        e ∈ members.entities ∨ e.owner = some s ∧ e.scopePath = m.scopePath s := by
    intro s members' hs
    by_cases hsi : s = id
    · subst hsi
      rw [scope?_modifyScope_self] at hs
      obtain ⟨members, hm, rfl⟩ := Option.map_eq_some_iff.mp hs
      exact ⟨members, hm, hf members⟩
    · rw [scope?_modifyScope_of_ne _ hsi] at hs
      exact ⟨members', hs, fun e he => .inl he⟩
  refine ⟨fun s members' hs e he => ?_, fun s hs => ?_⟩
  · obtain ⟨members, hm, hents⟩ := hscope s members' hs
    obtain he | he := hents e he
    · exact h.owned s members hm e he
    · exact he.1
  · rw [owner?, entity_modifyScope] at hs
    refine (h.placed s hs).transfer (scopePath_congr (by simp) (by simp)) ?_ fun j hj => .inr ?_
    · intro members' hs'
      obtain ⟨members, hm, hents⟩ := hscope s members' hs'
      exact ⟨members, hm, fun e he => (hents e he).imp_right And.right⟩
    · rw [Owned, owner?, entity_modifyScope] at hj
      exact ⟨hj, by rw [entity_modifyScope]⟩

theorem allocated {node : TypeNode} (h : m.Coherent) (ht : m.IsTree) (hn : node.IsBlank) :
    (m.allocated node).Coherent := by
  have howner : (m.allocated node).owner? m.next = none := by
    rw [owner?, node_allocated_next, hn.owner]
  refine ⟨fun s members hs e he => ?_, fun s hs => ?_⟩
  · by_cases hsn : s = m.next
    · subst hsn
      rw [scope?, node_allocated_next] at hs
      rw [hn.members members hs] at he
      cases he
    · rw [scope?, node_allocated_of_ne hsn] at hs
      exact h.owned s members hs e he
  · have hsn : s ≠ m.next := by
      rintro rfl
      obtain hr | ho := hs
      · exact ne_next_of_knows ht.knows_root hr.symm
      · exact ho howner
    have hnode : (m.allocated node).node s = m.node s := node_allocated_of_ne hsn
    rw [owner?, hnode] at hs
    refine (h.placed s hs).transfer (scopePath_congr (by rw [hnode]) (by rw [hnode])) ?_
      fun j hj => .inr ?_
    · intro members hm
      rw [scope?, hnode] at hm
      exact ⟨members, hm, fun e he => .inl he⟩
    · have hjn : j ≠ m.next := by
        rintro rfl
        rw [Owned, howner] at hj
        cases hj
      rw [Owned, owner?, node_allocated_of_ne hjn] at hj
      exact ⟨hj, by rw [node_allocated_of_ne hjn]⟩

/-- Writes to naming records matter only where they change paths, names or owners. -/
theorem annotated {f : TypeNode → TypeNode} (h : m.Coherent)
    (hf : (m.node id).Annotated p (f (m.node id))) : (m.modifyNode id f).Coherent := by
  have hnode : ∀ j, (m.node j).Annotated p ((m.modifyNode id f).node j) := rel_modifyNode .refl hf
  refine ⟨fun s members hs e he => ?_, fun s hs => ?_⟩
  · exact h.owned s members ((hnode s).scope.symm.trans hs) e he
  · rw [owner?, (hnode s).owner] at hs
    refine (h.placed s hs).transfer ?_ ?_ fun j hj => .inr ?_
    · have hname : (m.modifyNode id f).fullName s = m.fullName s := by
        rw [fullName, fullName, TypeNode.fullName, TypeNode.fullName, Entity.fullName,
          Entity.fullName, (hnode s).scopePath]
        exact congrArg _ (hnode s).name
      rw [scopePath, scopePath, (hnode s).isRoot, hname]
    · exact fun members hm => ⟨members, (hnode s).scope.symm.trans hm, fun e he => .inl he⟩
    · rw [Owned, owner?, (hnode j).owner] at hj
      exact ⟨hj, (hnode j).scopePath⟩

theorem released (h : m.Coherent) (ht : m.IsTree) (hm : m.Member id owner) :
    (m.released owner id).Coherent := by
  have hk := knows_of_owner hm.1
  have hscope : ∀ s members', (m.released owner id).scope? s = some members' →
      ∃ members, m.scope? s = some members ∧ members'.entities = members.entities := by
    intro s members' hs
    rw [Model.released, scope?_modifyEntity] at hs
    by_cases hso : s = owner
    · subst hso
      rw [scope?_modifyScope_self] at hs
      obtain ⟨members, hm, rfl⟩ := Option.map_eq_some_iff.mp hs
      exact ⟨members, hm, rfl⟩
    · rw [scope?_modifyScope_of_ne _ hso] at hs
      exact ⟨members', hs, rfl⟩
  refine ⟨fun s members' hs e he => ?_, fun s hs => ?_⟩
  · obtain ⟨members, hm, hents⟩ := hscope s members' hs
    exact h.owned s members hm e (hents ▸ he)
  · have hsi : s ≠ id := by
      rintro rfl
      obtain rfl | ho := hs
      · exact ht.ne_root_of_owned hm.1 rfl
      · exact ho (by rw [owner?_released hk, if_pos rfl])
    have hents : ((m.released owner id).node s).entity = (m.node s).entity :=
      entity_released_of_ne hsi
    rw [owner?_released hk, if_neg hsi] at hs
    refine (h.placed s hs).transfer (scopePath_congr hents (by simp)) ?_ fun j hj => .inr ?_
    · intro members' hs'
      obtain ⟨members, hm, he⟩ := hscope s members' hs'
      exact ⟨members, hm, fun e h => .inl (he ▸ h)⟩
    · rw [Owned, owner?_released hk] at hj
      split at hj
      · cases hj
      · next hji => exact ⟨hj, by rw [entity_released_of_ne hji]⟩

theorem named {name : String} (h : m.Coherent) (hr : id ≠ .root) (ho : m.owner? id = none) :
    (m.named id name).Coherent := by
  have hnode : ∀ j, j ≠ id → (m.named id name).node j = m.node j := fun j hj =>
    node_modifyNode_of_ne _ hj
  refine ⟨fun s members hs e he => ?_, fun s hs => ?_⟩
  · rw [Model.named, scope?_modifyEntity] at hs
    exact h.owned s members hs e he
  · rw [owner?_named] at hs
    have hsi : s ≠ id := by
      rintro rfl
      exact hs.elim hr fun h => h ho
    refine (h.placed s hs).congr ?_ (hnode s hsi) fun j hj => hnode j ?_
    · funext a b
      simp [Owned]
    · rintro rfl
      exact absurd (hj.1.symm.trans ho) (by simp)

theorem stranded (h : m.Coherent) (ht : m.IsTree) (hk : m.Knows id)
    (hempty : ∀ members, m.scope? id = some members → members = {})
    (hc : (m.node scope).isContainer = false) : (m.claimed scope id).Coherent := by
  refine ⟨fun s members hs e he => ?_, fun s hs => ?_⟩
  · rw [claimed, scope?_modifyEntity] at hs
    exact h.owned s members hs e he
  · intro members hm
    rw [claimed, scope?_modifyEntity] at hm
    have howned : ∀ j, (m.claimed scope id).Owned j s → j ≠ id ∧ m.Owned j s := by
      intro j hj
      rw [Owned, owner?_claimed hk] at hj
      split at hj
      · obtain rfl := Option.some.inj hj
        simp [isContainer_iff.mpr ⟨members, hm⟩] at hc
      · next hji => exact ⟨hji, hj⟩
    by_cases hsi : s = id
    · subst hsi
      obtain rfl := hempty members hm
      refine ⟨fun j hj => ?_, fun e he => by cases he⟩
      have hlisted := ht.owned (howned j hj).2 (isContainer_iff.mpr ⟨_, hm⟩)
      simp [type?, hm] at hlisted
    · have hnode : (m.claimed scope id).node s = m.node s := node_modifyNode_of_ne _ hsi
      rw [owner?_claimed hk, if_neg hsi] at hs
      have hp := scopePath_congr (m := m) (by rw [hnode]) (by rw [hnode])
      rw [hp]
      obtain ⟨htypes, hpaths⟩ := h.placed s hs members hm
      refine ⟨fun j hj => ?_, hpaths⟩
      obtain ⟨hji, hj⟩ := howned j hj
      rw [claimed, node_modifyNode_of_ne _ hji]
      exact htypes j hj

/-- The walk below the linked node puts everything there in its place. -/
theorem linked (h : m.Coherent) (ht : m.IsTree) (hk : m.Knows id) (hr : id ≠ .root)
    (ho : m.owner? id = none) (hc : (m.node scope).isContainer = true)
    (hfree : m.type? scope (m.node id).name = none) (hi : ¬ m.Inside scope id) :
    (m.linked scope id).Coherent := by
  set m₁ := (m.claimed scope id).entered scope id with hm₁
  have ht₁ : m₁.IsTree := ht.entered_claimed hk hr ho hc hfree hi
  have hw : Refreshed m₁ id (m.linked scope id) := refreshed_refreshPaths ht₁ id
  have howner : ∀ j, (m.linked scope id).owner? j = if j = id then some scope else m.owner? j := by
    intro j
    rw [hw.repathed.sameShape.owner?_eq, ← owner?_claimed hk, owner?, hm₁, entered,
      entity_modifyScope, owner?]
  have hentity : ∀ j, j ≠ id → (m₁.node j).entity = (m.node j).entity := fun j hj => by
    rw [hm₁, entered, entity_modifyScope, claimed, node_modifyNode_of_ne _ hj]
  refine ⟨fun s members hs e he => ?_, fun s hs => ?_⟩
  · obtain ⟨members₁, hs₁, heq⟩ := hw.repathed.map_owner_entities hs
    obtain ⟨members₀, hs₀, hents⟩ := scope?_entered_claimed hs₁
    have hmem : e.owner ∈ members₀.entities.map Entity.owner := by
      rw [← hents, heq]
      exact List.mem_map_of_mem he
    obtain ⟨e₀, he₀, hee⟩ := List.mem_map.mp hmem
    rw [← hee]
    exact h.owned s members₀ hs₀ e₀ he₀
  · by_cases hb : m₁.Below s id
    · exact hw.placed s hb
    have hsi : s ≠ id := by
      rintro rfl
      exact hb .refl
    have hnode : (m.linked scope id).node s = m₁.node s := hw.outside s hb
    rw [howner, if_neg hsi] at hs
    refine (h.placed s hs).transfer ?_ ?_ fun j hj => ?_
    · refine scopePath_congr (by rw [hnode, hentity s hsi]) ?_
      rw [hnode, hm₁, entered, isRoot_modifyScope, claimed, isRoot_modifyEntity]
    · intro members' hs'
      rw [scope?, hnode] at hs'
      obtain ⟨members, hm, he⟩ := scope?_entered_claimed hs'
      exact ⟨members, hm, fun e h => .inl (he ▸ h)⟩
    · rw [Owned, howner] at hj
      split at hj
      · next hji =>
        obtain rfl := Option.some.inj hj
        rw [hji, hw.top, hm₁, entered, entity_modifyScope, claimed, entity_modifyEntity_self _ hk]
        exact .inl rfl
      · next hji =>
        refine .inr ⟨hj, ?_⟩
        rw [hw.outside j, hentity j hji]
        -- a member of a scope outside of the linked node lies outside of it as well
        intro hjb
        obtain rfl | ⟨c, hjc, hcb⟩ := hjb.head_cases
        · exact hji rfl
        · have hjs : m₁.Owned j s := by
            rw [Owned, owner?, hentity j hji]
            exact hj
          obtain rfl := hjc.1.unique hjs
          exact hb hcb

end Coherent

/-- Every elementary change keeps members and paths coherent. -/
theorem Change.coherent (hc : Change p m m') (ht : m.IsTree) (h : m.Coherent) : m'.Coherent := by
  cases hc with
  | declared fresh => exact h.allocated ht fresh.toIsBlank
  | specialized => exact h.allocated ht ⟨rfl, fun scope hs => by cases hs; rfl, rfl⟩
  | annotated same => exact h.annotated same
  | released member => exact h.released ht member
  | named _ below loose => exact h.named below loose
  | linked known below loose container free outside =>
    exact h.linked ht known below loose container free outside
  | stranded known _ _ empty _ container => exact h.stranded ht known empty container
  | typedefAdded => exact h.modifyScope fun _ e he => .inl he
  | operationAdded => exact h.modifyScope fun _ e he => Scope.mem_entities_of_operation he
  | constantAdded =>
    refine h.modifyScope fun _ e he => ?_
    obtain he | rfl := Scope.mem_entities_of_constant he
    · exact .inl he
    · exact .inr ⟨rfl, rfl⟩
  | attributeAdded =>
    refine h.modifyScope fun _ e he => ?_
    obtain he | rfl := Scope.mem_entities_of_attribute he
    · exact .inl he
    · exact .inr ⟨rfl, rfl⟩
  | parentAdded => exact h.modifyScope fun _ e he => .inl he
  | usedAdded => exact h.modifyScope fun members e he => .inl (members.entities_use _ ▸ he)
  | consulted => exact ⟨h.owned, h.placed⟩

theorem Run.coherent (h : Run p m m') (hs : Sound p m) (hc : m.Coherent) : m'.Coherent := by
  induction h with
  | refl => exact hc
  | tail before step ih => exact step.coherent (Run.sound before hs).isTree ih

theorem coherent_rootOnly {config : Config} (h : rootOnly config = .ok m) : m.Coherent where
  owned s members hs e he := by
    rw [scope?_rootOnly h hs] at he
    cases he
  placed s _ members hs := by
    rw [scope?_rootOnly h hs]
    refine ⟨fun id hid => ?_, fun e he => by cases he⟩
    simp [Owned, owner?_rootOnly h] at hid

theorem Reachable.coherent (h : Reachable p m) : m.Coherent :=
  h.induct (fun _ => coherent_rootOnly) fun hs h hc => hc.coherent hs.isTree h

/-- The type belongs to the root through scopes that list each other; the names lead there. -/
inductive Attached (m : Model) : TypeId → List String → Prop
  | root : Attached m .root []
  | member {id s : TypeId} {names : List String} (above : Attached m s names)
      (member : m.Member id s) : Attached m id (names ++ [(m.node id).name])

theorem Attached.scopePath_eq {names : List String} (ha : m.Attached s names) (ht : m.IsTree)
    (h : m.Coherent) : m.scopePath s = names.foldl Path.qualify "" := by
  induction ha with
  | root => simp [scopePath, (ht.isRoot_iff .root).mpr rfl]
  | @member id s names above hm ih =>
    have hroot : (m.node id).isRoot = false := by
      simpa [Bool.eq_false_iff, ht.isRoot_iff] using ht.ne_root_of_owned hm.1
    have hs : s = .root ∨ m.owner? s ≠ none := by
      cases above with
      | root => exact .inl rfl
      | member _ hm' => exact .inr (by rw [hm'.1]; simp)
    obtain ⟨members, hscope⟩ := isContainer_iff.mp hm.2
    have hpath := (h.placed s hs members hscope).1 id hm.1
    rw [List.foldl_append, ← ih, List.foldl_cons, List.foldl_nil, scopePath, hroot, ← hpath]
    rfl

/-- In every scope within the root, types and members belong to the scope and are named by its path.
So the full name of all that is attached are the names along the owners. -/
theorem Reachable.names_coherent (h : Reachable p m) {members : Scope}
    (hs : m.scope? s = some members) (hw : m.isWithin s .root = true) :
    (∀ id ∈ members.types.values, m.owner? id = some s ∧
      m.fullName id = Path.qualify (m.scopePath s) (m.node id).name) ∧
    (∀ e ∈ members.entities, e.owner = some s ∧
      e.fullName = Path.qualify (m.scopePath s) e.name) ∧
    ∀ names, m.Attached s names →
      (∀ id ∈ members.types.values,
        m.fullName id = (names ++ [(m.node id).name]).foldl Path.qualify "") ∧
      ∀ e ∈ members.entities, e.fullName = (names ++ [e.name]).foldl Path.qualify "" := by
  have ht := h.sound.isTree
  have hc := h.coherent
  have hjoined : s = .root ∨ m.owner? s ≠ none := by
    obtain rfl | ⟨owner, ho, -⟩ := (ht.isWithin_iff.mp hw).cases_head
    · exact .inl rfl
    · exact .inr (by rw [ho]; simp)
  obtain ⟨hids, hents⟩ := hc.placed s hjoined members hs
  have htypes : ∀ id ∈ members.types.values, m.owner? id = some s ∧
      m.fullName id = Path.qualify (m.scopePath s) (m.node id).name := by
    intro id hid
    obtain ⟨⟨name, id⟩, he, rfl⟩ := List.mem_map.mp hid
    have ho := (ht.listed (type?_eq_some_iff.mpr
      ⟨members, hs, OrderedMap.get?_eq_some_iff.mpr he⟩)).2
    rw [← hids id ho]
    exact ⟨ho, rfl⟩
  have hmembers : ∀ e ∈ members.entities, e.owner = some s ∧
      e.fullName = Path.qualify (m.scopePath s) e.name := fun e he =>
    ⟨hc.owned s members hs e he, by rw [← hents e he]; rfl⟩
  refine ⟨htypes, hmembers, fun names ha => ?_⟩
  have hfold : ∀ name, (names ++ [name]).foldl Path.qualify "" =
      Path.qualify (m.scopePath s) name := fun name => by
    rw [List.foldl_append, ha.scopePath_eq ht hc]
    rfl
  exact ⟨fun id hid => by rw [hfold, (htypes id hid).2],
    fun e he => by rw [hfold, (hmembers e he).2]⟩

/-- The class `n::A` gets a constant and is moved into the root. -/
theorem names_coherent_of_moved : ∃ m members, Reachable .free m ∧
    m.scope? ⟨2⟩ = some members ∧ members.entities.map Entity.name = ["K"] ∧
    ∀ e ∈ members.entities, e.owner = some ⟨2⟩ ∧
      e.fullName = Path.qualify (m.scopePath ⟨2⟩) e.name := by
  let actions : List Action :=
    [.addType .root (declaration .classType "n" "A") true,
     .addConstant ⟨2⟩ { entity := { name := "K" }, value := "1" },
     .moveType ⟨2⟩ .root]
  have h : Reachable .free (bare.afterAll actions) := by
    refine reachable_bare.afterAll ?_
    simp only [actions, List.forall_mem_cons, List.not_mem_nil, false_imp_iff, implies_true,
      and_true]
    exact ⟨fun _ => isFresh_declaration nofun nofun, fun _ => nofun, fun _ => trivial⟩
  have hnames : ((bare.afterAll actions).scope? ⟨2⟩).map (fun s => s.entities.map Entity.name) =
      some ["K"] := by decide +kernel
  obtain ⟨members, hs, hn⟩ := Option.map_eq_some_iff.mp hnames
  have hw : (bare.afterAll actions).isWithin ⟨2⟩ .root = true := by decide +kernel
  exact ⟨_, members, h, hs, hn, (h.names_coherent hs hw).2.1⟩

end Model

end ApiModel
