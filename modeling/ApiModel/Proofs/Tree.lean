import ApiModel.Proofs.Nodes

/-!
The shape of every model: scopes list exactly the types they own, under the names these have, and
owners never run in a circle.
-/

namespace ApiModel

open Relation

structure TypeNode.SameShape (a b : TypeNode) : Prop where
  name : b.name = a.name
  owner : b.entity.owner = a.entity.owner
  isRoot : b.isRoot = a.isRoot
  types : b.scope?.map Scope.types = a.scope?.map Scope.types

namespace TypeNode.SameShape

variable {a b : TypeNode}

theorem refl (a : TypeNode) : a.SameShape a := ⟨rfl, rfl, rfl, rfl⟩

theorem isContainer (h : a.SameShape b) : b.isContainer = a.isContainer := by
  rw [TypeNode.isContainer, TypeNode.isContainer, ← Option.isSome_map (f := Scope.types), h.types,
    Option.isSome_map]

theorem mapScope {f : Scope → Scope} (hf : ∀ scope, (f scope).types = scope.types)
    (a : TypeNode) : a.SameShape (a.mapScope f) where
  name := a.name_mapScope f
  owner := by simp
  isRoot := a.isRoot_mapScope f
  types := by simp [Option.map_map, Function.comp_def, hf]

end TypeNode.SameShape

namespace Model

structure SameShape (m m' : Model) : Prop where
  size_eq : m'.size = m.size
  node : ∀ id, (m.node id).SameShape (m'.node id)

namespace SameShape

variable {m m' : Model}

theorem owner?_eq (h : m.SameShape m') (id : TypeId) : m'.owner? id = m.owner? id :=
  (h.node id).owner

theorem owned_eq (h : m.SameShape m') : m'.Owned = m.Owned := by
  funext a b
  simp [Owned, h.owner?_eq]

theorem knows_iff (h : m.SameShape m') {id : TypeId} : m'.Knows id ↔ m.Knows id := by
  rw [Knows, Knows, h.size_eq]

theorem type?_eq (h : m.SameShape m') (id : TypeId) (name : String) :
    m'.type? id name = m.type? id name := by
  have hb : ∀ m : Model, m.type? id name =
      ((m.node id).scope?.map Scope.types).bind (·.get? name) := fun m => by
    cases hs : (m.node id).scope? <;> simp [type?, scope?, hs]
  rw [hb, hb, (h.node id).types]

theorem modifyNode (id : TypeId) {f : TypeNode → TypeNode}
    (hf : (m.node id).SameShape (f (m.node id))) : m.SameShape (m.modifyNode id f) where
  size_eq := size_modifyNode ..
  node := rel_modifyNode .refl hf

end SameShape

/-- The types of a model form a tree. A node whose owner holds no members is listed nowhere; such
nodes are left by a namespace that was to be made inside of a basic type. -/
structure IsTree (m : Model) : Prop where
  root_container : (m.node .root).isContainer = true
  root_owner : m.owner? .root = none
  isRoot_iff : ∀ id, (m.node id).isRoot = true ↔ id = .root
  /-- What a scope lists has the listed name and belongs to the scope. -/
  listed : ∀ {s name id}, m.type? s name = some id → (m.node id).name = name ∧ m.owner? id = some s
  /-- What belongs to a scope is listed there. -/
  owned : ∀ {id s}, m.owner? id = some s → (m.node s).isContainer = true →
    m.type? s (m.node id).name = some id
  owner_known : ∀ {id s}, m.owner? id = some s → m.Knows s
  acyclic : Acyclic m.Owned

namespace IsTree

variable {m : Model} {id s : TypeId}

theorem congr {m' : Model} (h : m.IsTree) (hs : m.SameShape m') : m'.IsTree where
  root_container := (hs.node _).isContainer.trans h.root_container
  root_owner := (hs.owner?_eq _).trans h.root_owner
  isRoot_iff id := by rw [(hs.node id).isRoot, h.isRoot_iff]
  listed {s name id} hl := by
    rw [hs.type?_eq] at hl
    rw [(hs.node id).name, hs.owner?_eq]
    exact h.listed hl
  owned {id s} ho hc := by
    rw [hs.owner?_eq] at ho
    rw [(hs.node s).isContainer] at hc
    rw [hs.type?_eq, (hs.node id).name]
    exact h.owned ho hc
  owner_known {id s} ho := hs.knows_iff.mpr (h.owner_known (by rwa [hs.owner?_eq] at ho))
  acyclic := by rw [hs.owned_eq]; exact h.acyclic

theorem knows_root (h : m.IsTree) : m.Knows .root := knows_of_isContainer h.root_container

theorem exists_rank (h : m.IsTree) : ∃ rank, IsRank m.Owned m.size rank :=
  h.acyclic.exists_rank h.owner_known

theorem exists_height (h : m.IsTree) :
    ∃ height, IsRank (Function.swap m.Owned) m.size height :=
  h.acyclic.swap.exists_rank knows_of_owner

theorem isWithin_iff (h : m.IsTree) {a b : TypeId} : m.isWithin a b = true ↔ m.Inside a b := by
  obtain ⟨rank, hr⟩ := h.exists_rank
  exact ⟨inside_of_isWithinUpTo, fun hab => isWithinUpTo_of_inside hr hab (hr.le a)⟩

/-- Two scopes that lie in each other are the same. -/
theorem inside_antisymm (h : m.IsTree) {a b : TypeId} (hab : m.Inside a b) (hba : m.Inside b a) :
    a = b := by
  obtain rfl | hab := reflTransGen_iff_eq_or_transGen.mp hab
  · rfl
  · exact absurd (hab.trans_left hba) (h.acyclic a)

theorem not_inside_of_owned (h : m.IsTree) (ho : m.Owned id s) : ¬ m.Inside s id := fun hs =>
  h.acyclic id (TransGen.head' ho hs)

theorem listed_unique (h : m.IsTree) {s' : TypeId} {name name' : String}
    (hs : m.type? s name = some id) (hs' : m.type? s' name' = some id) : s = s' ∧ name = name' := by
  obtain ⟨hn, ho⟩ := h.listed hs
  obtain ⟨hn', ho'⟩ := h.listed hs'
  exact ⟨Option.some.inj (ho.symm.trans ho'), hn.symm.trans hn'⟩

theorem ne_of_listed (h : m.IsTree) {loose : TypeId} {name : String} (ho : m.owner? loose = none)
    (hl : m.type? s name = some id) : id ≠ loose := by
  rintro rfl
  have hs := (h.listed hl).2
  rw [ho] at hs
  cases hs

theorem not_below_of_member (h : m.IsTree) (hm : m.Member id s) : ¬ m.Below s id := fun hs =>
  h.not_inside_of_owned hm.1 hs.inside

theorem mem_values_of_member (h : m.IsTree) {scope : Scope} (hm : m.Member id s)
    (hs : m.scope? s = some scope) : id ∈ scope.types.values := by
  have hl := h.owned hm.1 hm.2
  exact List.mem_map.mpr ⟨_, (type?_eq_some_iff_mem hs).mp hl, rfl⟩

end IsTree

end Model

end ApiModel
