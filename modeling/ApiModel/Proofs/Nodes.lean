import ApiModel.Model.Tree
import ApiModel.Proofs.Rank

/-!
What the elementary changes of a model do to each of its nodes, and the two relations between nodes
that every walk follows: a node and its owner, a class and its parents.
-/

namespace ApiModel

open Relation

namespace TypeNode

@[simp] theorem scope?_default : (default : TypeNode).scope? = none := rfl

@[simp] theorem owner_default : (default : TypeNode).entity.owner = none := rfl

@[simp] theorem mapScope_default (f : Scope → Scope) :
    (default : TypeNode).mapScope f = default := rfl

@[simp] theorem entity_mapEntity (f : Entity → Entity) (node : TypeNode) :
    (node.mapEntity f).entity = f node.entity := rfl

@[simp] theorem name_mapScope (f : Scope → Scope) (node : TypeNode) :
    (node.mapScope f).name = node.name := by simp [name]

@[simp] theorem isRoot_mapScope (f : Scope → Scope) (node : TypeNode) :
    (node.mapScope f).isRoot = node.isRoot := by
  unfold mapScope
  split <;> rfl

@[simp] theorem specialization_mapScope (f : Scope → Scope) (node : TypeNode) :
    (node.mapScope f).specialization = node.specialization := by
  unfold mapScope
  split <;> rfl

@[simp] theorem specializer?_mapScope (f : Scope → Scope) (node : TypeNode) :
    (node.mapScope f).specializer? = node.specializer? := by
  cases h : node.kind <;> simp [mapScope, specializer?, h]

@[simp] theorem isContainer_mapScope (f : Scope → Scope) (node : TypeNode) :
    (node.mapScope f).isContainer = node.isContainer := by
  simp [isContainer]

end TypeNode

namespace Model

variable {m : Model} {id owner : TypeId}

def Knows (m : Model) (id : TypeId) : Prop := id.index < m.size

instance (m : Model) (id : TypeId) : Decidable (m.Knows id) := by
  unfold Knows; infer_instance

theorem node_of_not_knows (h : ¬ m.Knows id) : m.node id = default := by
  have hsize : m.nodes.size ≤ id.index := by simpa [Knows, size] using h
  simp [node, Array.getD_eq_getD_getElem?, Array.getElem?_eq_none hsize]

theorem knows_of_owner (h : m.owner? id = some owner) : m.Knows id := by
  by_contra hk
  simp [owner?, node_of_not_knows hk] at h

theorem knows_of_scope {scope : Scope} (h : m.scope? id = some scope) : m.Knows id := by
  by_contra hk
  simp [scope?, node_of_not_knows hk] at h

theorem isContainer_iff : (m.node id).isContainer = true ↔ ∃ scope, m.scope? id = some scope := by
  rw [TypeNode.isContainer, Option.isSome_iff_exists]
  rfl

theorem knows_of_isContainer (h : (m.node id).isContainer = true) : m.Knows id := by
  obtain ⟨scope, h⟩ := isContainer_iff.mp h
  exact knows_of_scope h

theorem knows_of_isTemplate (h : (m.node id).isTemplate = true) : m.Knows id := by
  by_contra hk
  rw [node_of_not_knows hk] at h
  cases h

theorem type?_eq_some_iff {name : String} :
    m.type? id name = some owner ↔
      ∃ scope, m.scope? id = some scope ∧ scope.types.get? name = some owner := by
  rw [type?, Option.bind_eq_some_iff]

theorem type?_eq_some_iff_mem {members : Scope} (h : m.scope? id = some members) {name : String} :
    m.type? id name = some owner ↔ (name, owner) ∈ members.types.entries := by
  rw [type?, h, Option.bind_some, OrderedMap.get?_eq_some_iff]

@[simp] theorem knows_modifyNode (j : TypeId) (f : TypeNode → TypeNode) :
    (m.modifyNode j f).Knows id ↔ m.Knows id := by simp [Knows]

@[simp] theorem config_modifyNode (j : TypeId) (f : TypeNode → TypeNode) :
    (m.modifyNode j f).config = m.config := rfl

@[simp] theorem hook_modifyNode (j : TypeId) (f : TypeNode → TypeNode) :
    (m.modifyNode j f).hook = m.hook := rfl

@[simp] theorem journal_modifyNode (j : TypeId) (f : TypeNode → TypeNode) :
    (m.modifyNode j f).journal = m.journal := rfl

theorem node_modifyNode_self (f : TypeNode → TypeNode) (h : m.Knows id) :
    (m.modifyNode id f).node id = f (m.node id) := by
  rw [node_modifyNode _ _ _ _ h, if_pos rfl]

theorem node_modifyNode_of_ne {j : TypeId} (f : TypeNode → TypeNode) (h : id ≠ j) :
    (m.modifyNode j f).node id = m.node id := by
  by_cases hj : m.Knows j
  · rw [node_modifyNode _ _ _ _ hj, if_neg (Ne.symm h)]
  · have hsize : m.nodes.size ≤ j.index := by simpa [Knows, size] using hj
    have hij : j.index ≠ id.index := fun e => h (by cases id; cases j; simp_all)
    simp [node, modifyNode, Array.getD_eq_getD_getElem?, Array.getElem?_modify, hij]

/-- Nodes that are left alone are related to themselves, the changed one as the change says. -/
theorem rel_modifyNode {R : TypeNode → TypeNode → Prop} {f : TypeNode → TypeNode} {j : TypeId}
    (refl : ∀ node, R node node) (h : R (m.node j) (f (m.node j))) (id : TypeId) :
    R (m.node id) ((m.modifyNode j f).node id) := by
  by_cases hj : id = j
  · subst hj
    by_cases hk : m.Knows id
    · rwa [node_modifyNode_self _ hk]
    · rw [node_of_not_knows hk, node_of_not_knows (by simpa using hk)]
      exact refl _
  · rw [node_modifyNode_of_ne _ hj]
    exact refl _

/-- A change of members needs no known number, as unknown nodes have no members. -/
theorem node_modifyScope (j : TypeId) (f : Scope → Scope) :
    (m.modifyNode j (·.mapScope f)).node id =
      if id = j then (m.node id).mapScope f else m.node id := by
  by_cases h : id = j
  · subst h
    rw [if_pos rfl]
    by_cases hk : m.Knows id
    · exact node_modifyNode_self _ hk
    · rw [node_of_not_knows hk, node_of_not_knows (by simpa using hk), TypeNode.mapScope_default]
  · rw [if_neg h, node_modifyNode_of_ne _ h]

theorem node_modifyEntity_of_not_knows (j : TypeId) (f : Entity → Entity) (h : ¬ m.Knows id) :
    (m.modifyNode j (·.mapEntity f)).node id = m.node id := by
  rw [node_of_not_knows h, node_of_not_knows (by simpa using h)]

theorem entity_modifyEntity_self (f : Entity → Entity) (h : m.Knows id) :
    ((m.modifyNode id (·.mapEntity f)).node id).entity = f (m.node id).entity := by
  rw [node_modifyNode_self _ h]
  rfl

@[simp] theorem scope?_modifyEntity (j : TypeId) (f : Entity → Entity) :
    (m.modifyNode j (·.mapEntity f)).scope? id = m.scope? id := by
  by_cases hk : m.Knows id
  · by_cases h : id = j
    · subst h
      rw [scope?, node_modifyNode_self _ hk, TypeNode.scope?_mapEntity, scope?]
    · rw [scope?, node_modifyNode_of_ne _ h, scope?]
  · rw [scope?, node_modifyEntity_of_not_knows _ _ hk, scope?]

@[simp] theorem type?_modifyEntity (j : TypeId) (f : Entity → Entity) (name : String) :
    (m.modifyNode j (·.mapEntity f)).type? id name = m.type? id name := by simp [type?]

@[simp] theorem isContainer_modifyEntity (j : TypeId) (f : Entity → Entity) :
    ((m.modifyNode j (·.mapEntity f)).node id).isContainer = (m.node id).isContainer :=
  congrArg Option.isSome (scope?_modifyEntity j f)

@[simp] theorem isRoot_modifyEntity (j : TypeId) (f : Entity → Entity) :
    ((m.modifyNode j (·.mapEntity f)).node id).isRoot = (m.node id).isRoot := by
  by_cases hk : m.Knows id
  · by_cases h : id = j
    · subst h
      rw [node_modifyNode_self _ hk]
      rfl
    · rw [node_modifyNode_of_ne _ h]
  · rw [node_modifyEntity_of_not_knows _ _ hk]

@[simp] theorem entity_modifyScope (j : TypeId) (f : Scope → Scope) :
    ((m.modifyNode j (·.mapScope f)).node id).entity = (m.node id).entity := by
  rw [node_modifyScope]
  split <;> simp

@[simp] theorem isContainer_modifyScope (j : TypeId) (f : Scope → Scope) :
    ((m.modifyNode j (·.mapScope f)).node id).isContainer = (m.node id).isContainer := by
  rw [node_modifyScope]
  split <;> simp

@[simp] theorem isRoot_modifyScope (j : TypeId) (f : Scope → Scope) :
    ((m.modifyNode j (·.mapScope f)).node id).isRoot = (m.node id).isRoot := by
  rw [node_modifyScope]
  split <;> simp

theorem scope?_modifyScope_self (f : Scope → Scope) :
    (m.modifyNode id (·.mapScope f)).scope? id = (m.scope? id).map f := by
  rw [scope?, node_modifyScope, if_pos rfl, TypeNode.scope?_mapScope, scope?]

theorem scope?_modifyScope_of_ne {j : TypeId} (f : Scope → Scope) (h : id ≠ j) :
    (m.modifyNode j (·.mapScope f)).scope? id = m.scope? id := by
  rw [scope?, node_modifyScope, if_neg h, scope?]

def allocated (m : Model) (node : TypeNode) : Model := { m with nodes := m.nodes.push node }

def next (m : Model) : TypeId := ⟨m.size⟩

@[simp] theorem size_allocated (node : TypeNode) : (m.allocated node).size = m.size + 1 := by
  simp [size, allocated]

@[simp] theorem node_allocated_next (node : TypeNode) : (m.allocated node).node m.next = node := by
  simp [Model.node, allocated, next, size, Array.getD_eq_getD_getElem?]

theorem node_allocated_of_ne {node : TypeNode} (h : id ≠ m.next) :
    (m.allocated node).node id = m.node id := by
  have hi : id.index ≠ m.nodes.size := fun e => h (by cases id; simp_all [next, size])
  simp [Model.node, allocated, Array.getD_eq_getD_getElem?, Array.getElem?_push, hi]

theorem not_knows_next : ¬ m.Knows m.next := by simp [Knows, next]

theorem ne_next_of_knows (h : m.Knows id) : id ≠ m.next := fun e => not_knows_next (e ▸ h)

theorem Knows.allocated {node : TypeNode} (h : m.Knows id) : (m.allocated node).Knows id := by
  simp only [Knows, size_allocated] at h ⊢
  omega

def Owned (m : Model) (id owner : TypeId) : Prop := m.owner? id = some owner

/-- The first node is the second one, or lies below it. -/
def Inside (m : Model) : TypeId → TypeId → Prop := ReflTransGen m.Owned

theorem Owned.unique {a b c : TypeId} (hb : m.Owned a b) (hc : m.Owned a c) : b = c :=
  Option.some.inj (hb.symm.trans hc)

/-- The first node belongs to the second one, which holds members. -/
def Member (m : Model) (id scope : TypeId) : Prop :=
  m.Owned id scope ∧ (m.node scope).isContainer = true

instance (m : Model) (id scope : TypeId) : Decidable (m.Member id scope) := by
  unfold Member Owned; infer_instance

/-- The first node is the second one, or is reached from it through members. -/
def Below (m : Model) : TypeId → TypeId → Prop := ReflTransGen m.Member

theorem Below.inside {a b : TypeId} (h : m.Below a b) : m.Inside a b :=
  ReflTransGen.mono (fun _ _ h => h.1) a b h

theorem Below.head_cases {a b : TypeId} (h : m.Below a b) :
    a = b ∨ ∃ c, m.Member a c ∧ m.Below c b := by
  obtain rfl | ⟨c, hac, hcb⟩ := h.cases_head
  · exact .inl rfl
  · exact .inr ⟨c, hac, hcb⟩

theorem isWithinUpTo_of_inside {rank : TypeId → Nat} {bound : Nat} (hr : IsRank m.Owned bound rank)
    {a b : TypeId} (h : m.Inside a b) {climbs : Nat} (hc : rank a ≤ climbs) :
    m.isWithinUpTo b climbs a = true := by
  induction h using ReflTransGen.head_induction_on generalizing climbs with
  | refl => cases climbs <;> simp [isWithinUpTo]
  | @head a c hac _ ih =>
    have hlt := hr.lt hac
    obtain ⟨climbs, rfl⟩ : ∃ n, climbs = n + 1 := ⟨climbs - 1, by omega⟩
    have ho : m.owner? a = some c := hac
    have hrest : m.isWithinUpTo b climbs c = true := ih (by omega)
    simp [isWithinUpTo, ho, hrest]

theorem inside_of_isWithinUpTo {a b : TypeId} {climbs : Nat}
    (h : m.isWithinUpTo b climbs a = true) : m.Inside a b := by
  induction climbs generalizing a with
  | zero =>
    obtain rfl : a = b := by simpa [isWithinUpTo] using h
    exact .refl
  | succ climbs ih =>
    simp only [isWithinUpTo, Bool.or_eq_true, decide_eq_true_eq] at h
    obtain rfl | h := h
    · exact .refl
    · cases ho : m.owner? a with
      | none => simp [ho] at h
      | some owner => exact ReflTransGen.head ho (ih (by simpa [ho] using h))

end Model

end ApiModel
