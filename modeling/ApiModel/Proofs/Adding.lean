import ApiModel.Proofs.PlainNames

/-!
What lookups add. Of the nodes that were there, they write to the type maps of scopes to which a
template belongs, always behind the entries that are there. The one exception is a class that is
being filled, which gets operations; `Adds` names it.
-/

namespace ApiModel

/-- What a lookup leaves alone in a scope. Only an opened one may get operations. -/
def Scope.fixed (opened : Bool) (a : Scope) : Scope :=
  { a with types := .empty, operations := if opened then .empty else a.operations }

theorem Scope.fixed_enterType {entity : Entity} (h : entity.aliasName = none) (a : Scope)
    (id : TypeId) : (a.enterType entity id).fixed false = a.fixed false := by
  rw [enterType, h]
  rfl

namespace TypeNode

/-- What a lookup leaves alone in a node: all but the types in it, and the operations of an opened
one. -/
def fixed (opened : Bool) (node : TypeNode) : TypeNode := node.mapScope (·.fixed opened)

variable {a b : TypeNode} {opened : Bool}

theorem fixed_mapScope {f : Scope → Scope}
    (hf : ∀ scope, a.scope? = some scope → (f scope).fixed opened = scope.fixed opened) :
    (a.mapScope f).fixed opened = a.fixed opened := by
  obtain ⟨_, kind, _⟩ := a
  cases kind with
  | container kind members => simp [fixed, mapScope, hf members rfl]
  | _ => rfl

theorem fixed_of_fixed_false (h : b.fixed false = a.fixed false) (opened : Bool) :
    b.fixed opened = a.fixed opened := by
  have hagain : ∀ node : TypeNode, (node.fixed false).fixed opened = node.fixed opened :=
    fun node => fixed_mapScope fun _ _ => by simp [Scope.fixed]
  rw [← hagain, h, hagain]

theorem apply_eq_of_fixed {α : Type} {g : TypeNode → α} (h : b.fixed opened = a.fixed opened)
    (hg : ∀ node : TypeNode, g (node.fixed opened) = g node) : g b = g a := by
  rw [← hg, h, hg]

theorem entity_eq_of_fixed (h : b.fixed opened = a.fixed opened) : b.entity = a.entity :=
  apply_eq_of_fixed h fun node => node.entity_mapScope _

theorem entityKind_eq_of_fixed (h : b.fixed opened = a.fixed opened) :
    b.entityKind = a.entityKind := apply_eq_of_fixed h fun node => node.entityKind_mapScope _

theorem isTemplate_eq_of_fixed (h : b.fixed opened = a.fixed opened) :
    b.isTemplate = a.isTemplate := by
  rw [isTemplate, entityKind_eq_of_fixed h, isTemplate]

theorem specializer?_eq_of_fixed (h : b.fixed opened = a.fixed opened) :
    b.specializer? = a.specializer? := apply_eq_of_fixed h fun node => node.specializer?_mapScope _

theorem specialization_eq_of_fixed (h : b.fixed opened = a.fixed opened) :
    b.specialization = a.specialization :=
  apply_eq_of_fixed h fun node => node.specialization_mapScope _

theorem isContainer_eq_of_fixed (h : b.fixed opened = a.fixed opened) :
    b.isContainer = a.isContainer := apply_eq_of_fixed h fun node => node.isContainer_mapScope _

theorem typeAliases_eq_of_fixed (h : b.fixed opened = a.fixed opened) :
    b.scope?.map Scope.typeAliases = a.scope?.map Scope.typeAliases :=
  apply_eq_of_fixed (g := fun node => node.scope?.map Scope.typeAliases) h fun node => by
    rw [fixed, scope?_mapScope, Option.map_map]
    rfl

theorem parents_eq_of_fixed (h : b.fixed opened = a.fixed opened) :
    (b.scope?.getD {}).parents = (a.scope?.getD {}).parents :=
  apply_eq_of_fixed (g := fun node => (node.scope?.getD {}).parents) h fun node => by
    rw [fixed, scope?_mapScope]
    cases node.scope? <;> rfl

theorem operations_eq_of_fixed (h : b.fixed false = a.fixed false) :
    (b.scope?.getD {}).operations = (a.scope?.getD {}).operations :=
  apply_eq_of_fixed (g := fun node => (node.scope?.getD {}).operations) h fun node => by
    rw [fixed, scope?_mapScope]
    cases node.scope? <;> rfl

theorem eq_of_fixed (h : b.fixed false = a.fixed false)
    (ht : b.scope?.map Scope.types = a.scope?.map Scope.types) : b = a := by
  have hback : ∀ node : TypeNode, (node.fixed false).mapScope
      (fun s => { s with types := (node.scope?.map Scope.types).getD .empty }) = node := by
    intro node
    obtain ⟨_, kind, _⟩ := node
    cases kind <;> rfl
  rw [← hback b, h, ht, hback]

end TypeNode

namespace Model

variable {filled filled' : Option TypeId} {m m' m'' : Model} {id scope owner : TypeId}
  {op : Operation}

/-- A template belongs to the scope, or to none while the scope is the root, so that its
specializations go there. -/
def HoldsSpecializations (m : Model) (s : TypeId) : Prop :=
  ∃ template, (m.node template).isTemplate = true ∧ m.specializationScope template = s

def newClass (m : Model) (made : Specialization) : TypeNode :=
  (TypeNode.specialized (m.specializationName made.template made.arguments) made).mapEntity
    (·.setOwner (some (m.specializationScope made.template))
      (m.scopePath (m.specializationScope made.template)))

def withNewClass (m : Model) (made : Specialization) : Model :=
  (m.allocated (.specialized (m.specializationName made.template made.arguments) made)).linked
    (m.specializationScope made.template) m.next

theorem knows_withNewClass_iff {made : Specialization} :
    (m.withNewClass made).Knows id ↔ m.Knows id ∨ id = m.next := by
  obtain ⟨i⟩ := id
  rw [Knows, Knows, withNewClass, size_linked, size_allocated, next, TypeId.mk.injEq]
  exact Nat.lt_succ_iff_lt_or_eq

section

variable {made : Specialization}
  (hc : (m.node (m.specializationScope made.template)).isContainer = true)

include hc

theorem node_withNewClass_next : (m.withNewClass made).node m.next = m.newClass made :=
  node_linked_next hc (TypeNode.isSimple_specialized _ _).toIsBlank

theorem node_withNewClass_of_ne (hid : id ≠ m.next) : (m.withNewClass made).node id =
    if id = m.specializationScope made.template then
      (m.node id).mapScope (·.enterType (m.newClass made).entity m.next)
    else m.node id :=
  node_linked_next_of_ne hc (TypeNode.isSimple_specialized _ _).toIsBlank hid

end

theorem node_released_of_ne {j : TypeId} (hj : j ≠ id) : (m.released owner id).node j =
    if j = owner then (m.node j).mapScope (·.removeType (m.node id).name id) else m.node j := by
  rw [Model.released, node_modifyNode_of_ne _ hj, node_modifyScope]

theorem node_released_self (hk : m.Knows id) (hne : id ≠ owner) : (m.released owner id).node id =
    (m.node id).mapEntity (·.setOwner none "") := by
  rw [Model.released, node_modifyNode_self _ (by simpa [Knows] using hk), node_modifyScope,
    if_neg hne]

/-- All nodes that were added have the name. -/
def AddsNamed (m m' : Model) (name : String) : Prop :=
  ∀ id, ¬ m.Knows id → m'.Knows id → (m'.node id).name = name

namespace AddsNamed

variable {name : String}

theorem refl (m : Model) (name : String) : m.AddsNamed m name := fun _ hnew hk => absurd hk hnew

theorem withNewClass {made : Specialization}
    (hc : (m.node (m.specializationScope made.template)).isContainer = true) :
    m.AddsNamed (m.withNewClass made) (m.specializationName made.template made.arguments) := by
  intro id hnew hk
  obtain rfl := (knows_withNewClass_iff.mp hk).resolve_left hnew
  rw [node_withNewClass_next hc]
  rfl

theorem withOperation (h : m.AddsNamed m' name) (id : TypeId) (op : Operation) :
    m.AddsNamed (m'.withOperation id op) name := by
  intro j hnew hk
  rw [TypeNode.name, Model.withOperation, entity_modifyScope]
  exact h j hnew ((knows_modifyNode _ _).mp hk)

end AddsNamed

/-- How the second model comes from the first one by additions. Entries of types are put behind
those that were there, and are for new nodes, none of which is a template. Operations are added to
one class only. -/
structure Adds (filled : Option TypeId) (m m' : Model) : Prop where
  size_le : m.size ≤ m'.size
  config : m'.config = m.config
  hook : m'.hook = m.hook
  journal : m'.journal = m.journal
  fixed : ∀ id, m.Knows id →
    (m'.node id).fixed (filled = some id) = (m.node id).fixed (filled = some id)
  types : ∀ id, m.Knows id → ∃ added,
    (m'.members id).types.entries = (m.members id).types.entries ++ added ∧
      ∀ entry ∈ added, ¬ m.Knows entry.2 ∧ m.HoldsSpecializations id
  untemplated : ∀ id, ¬ m.Knows id → (m'.node id).isTemplate = false

theorem isTemplate_of_specializer {specializer : Specializer}
    (h : (m.node id).specializer? = some specializer) : (m.node id).isTemplate = true := by
  unfold TypeNode.specializer? at h
  unfold TypeNode.isTemplate TypeNode.entityKind
  split at h
  · next hkind => rw [hkind]; rfl
  · cases h

namespace Adds

theorem refl (filled : Option TypeId) (m : Model) : Adds filled m m where
  size_le := le_rfl
  config := rfl
  hook := rfl
  journal := rfl
  fixed _ _ := rfl
  types _ _ := ⟨[], (List.append_nil _).symm, List.forall_mem_nil _⟩
  untemplated id hk := by rw [node_of_not_knows hk]; rfl

theorem knows (h : Adds filled m m') (hk : m.Knows id) : m'.Knows id :=
  Nat.lt_of_lt_of_le hk h.size_le

theorem isTemplate_eq (h : Adds filled m m') (hk : m.Knows id) :
    (m'.node id).isTemplate = (m.node id).isTemplate :=
  TypeNode.isTemplate_eq_of_fixed (h.fixed id hk)

theorem owner?_eq (h : Adds filled m m') (hk : m.Knows id) : m'.owner? id = m.owner? id :=
  congrArg Entity.owner (TypeNode.entity_eq_of_fixed (h.fixed id hk))

theorem isContainer_eq (h : Adds filled m m') (hk : m.Knows id) :
    (m'.node id).isContainer = (m.node id).isContainer :=
  TypeNode.isContainer_eq_of_fixed (h.fixed id hk)

theorem specialization_eq (h : Adds filled m m') (hk : m.Knows id) :
    (m'.node id).specialization = (m.node id).specialization :=
  TypeNode.specialization_eq_of_fixed (h.fixed id hk)

theorem specialization_eq_some (h : Adds filled m m') {made : Specialization}
    (hmade : (m.node id).specialization = some made) :
    (m'.node id).specialization = some made := by
  have hk : m.Knows id := by
    by_contra hk
    rw [node_of_not_knows hk] at hmade
    cases hmade
  rw [h.specialization_eq hk, hmade]

theorem parents_eq (h : Adds filled m m') (hk : m.Knows id) :
    (m'.members id).parents = (m.members id).parents :=
  TypeNode.parents_eq_of_fixed (h.fixed id hk)

theorem operations_eq (h : Adds none m m') (hk : m.Knows id) :
    (m'.members id).operations = (m.members id).operations :=
  TypeNode.operations_eq_of_fixed (h.fixed id hk)

theorem knows_of_isTemplate (h : Adds filled m m') (ht : (m'.node id).isTemplate = true) :
    m.Knows id := by
  by_contra hk
  rw [h.untemplated id hk] at ht
  cases ht

theorem specializationScope_eq (h : Adds filled m m') (hk : m.Knows id) :
    m'.specializationScope id = m.specializationScope id := by
  rw [specializationScope, specializationScope, h.owner?_eq hk]

theorem specializer?_eq (h : Adds filled m m') (hk : m.Knows id) :
    (m'.node id).specializer? = (m.node id).specializer? :=
  TypeNode.specializer?_eq_of_fixed (h.fixed id hk)

theorem holdsSpecializations (h : Adds filled m m') (hs : m'.HoldsSpecializations id) :
    m.HoldsSpecializations id := by
  obtain ⟨template, ht, rfl⟩ := hs
  have hk := h.knows_of_isTemplate ht
  exact ⟨template, (h.isTemplate_eq hk).symm.trans ht, (h.specializationScope_eq hk).symm⟩

/-- What is being filled in the second part is what is being filled in the first, or new. -/
theorem trans (h : Adds filled m m') (h' : Adds filled' m' m'')
    (hf : ∀ id, m.Knows id → filled' = some id → filled = some id) : Adds filled m m'' where
  size_le := h.size_le.trans h'.size_le
  config := h'.config.trans h.config
  hook := h'.hook.trans h.hook
  journal := h'.journal.trans h.journal
  fixed id hk := by
    have hlater := h'.fixed id (h.knows hk)
    have hfirst := h.fixed id hk
    by_cases hid : filled' = some id
    · rw [decide_eq_true hid] at hlater
      rw [decide_eq_true (hf id hk hid)] at hfirst ⊢
      exact hlater.trans hfirst
    · rw [decide_eq_false hid] at hlater
      exact (TypeNode.fixed_of_fixed_false hlater _).trans hfirst
  types id hk := by
    obtain ⟨added, he, hadded⟩ := h.types id hk
    obtain ⟨added', he', hadded'⟩ := h'.types id (h.knows hk)
    refine ⟨added ++ added', by rw [he', he, List.append_assoc], fun entry hentry => ?_⟩
    obtain hentry | hentry := List.mem_append.mp hentry
    · exact hadded entry hentry
    · obtain ⟨hnew, hholds⟩ := hadded' entry hentry
      exact ⟨fun hk' => hnew (h.knows hk'), h.holdsSpecializations hholds⟩
  untemplated id hk := by
    by_cases hk' : m'.Knows id
    · rw [h'.isTemplate_eq hk']
      exact h.untemplated id hk
    · exact h'.untemplated id hk'

theorem node_eq (h : Adds filled m m') (hk : m.Knows id) (hf : filled ≠ some id)
    (hs : ¬ m.HoldsSpecializations id) : m'.node id = m.node id := by
  have hfixed := h.fixed id hk
  rw [decide_eq_false hf] at hfixed
  refine TypeNode.eq_of_fixed hfixed ?_
  obtain ⟨added, he, hadded⟩ := h.types id hk
  obtain rfl : added = [] := List.eq_nil_iff_forall_not_mem.mpr fun entry hentry =>
    hs (hadded entry hentry).2
  have htypes : (m'.members id).types = (m.members id).types := by
    rw [List.append_nil] at he
    generalize (m'.members id).types = types' at he
    cases types'
    cases he
    rfl
  have hcontainer := h.isContainer_eq hk
  show (m'.scope? id).map _ = (m.scope? id).map _
  rw [TypeNode.isContainer, TypeNode.isContainer, ← scope?, ← scope?] at hcontainer
  cases ha : m.scope? id with
  | none =>
    rw [ha, Option.isSome_none, Option.isSome_eq_false_iff, Option.isNone_iff_eq_none] at hcontainer
    rw [hcontainer]
  | some a =>
    rw [ha, Option.isSome_some, Option.isSome_iff_exists] at hcontainer
    obtain ⟨b, hb⟩ := hcontainer
    rw [members_of_scope ha, members_of_scope hb] at htypes
    rw [hb, Option.map_some, Option.map_some, htypes]

theorem typeAliases_eq (h : Adds filled m m') (hk : m.Knows id) :
    (m'.members id).typeAliases = (m.members id).typeAliases := by
  have haliases := TypeNode.typeAliases_eq_of_fixed (h.fixed id hk)
  rw [← scope?, ← scope?] at haliases
  unfold members
  cases ha : m.scope? id <;> cases hb : m'.scope? id <;> simp_all

theorem withOperation (m : Model) (id : TypeId) (op : Operation) :
    Adds (some id) m (m.withOperation id op) where
  size_le := by rw [Model.withOperation, size_modifyNode]
  config := rfl
  hook := rfl
  journal := rfl
  fixed j hk := by
    rw [Model.withOperation, node_modifyScope]
    split
    · next hj =>
      rw [decide_eq_true (by rw [hj])]
      exact TypeNode.fixed_mapScope fun _ _ => rfl
    · rfl
  types j hk := by
    refine ⟨[], ?_, List.forall_mem_nil _⟩
    rw [List.append_nil, Model.withOperation, Model.members, scope?, node_modifyScope]
    split
    · rw [TypeNode.scope?_mapScope, Model.members, scope?]
      cases (m.node j).scope? <;> rfl
    · rfl
  untemplated j hk := by
    rw [node_of_not_knows (by simpa [Model.withOperation] using hk)]
    rfl

theorem withNewClass {made : Specialization} (ht : (m.node made.template).isTemplate = true)
    (hc : (m.node (m.specializationScope made.template)).isContainer = true)
    (hfree : m.madeSpecialization? made.template made.arguments = none) :
    Adds none m (m.withNewClass made) where
  size_le := by rw [Model.withNewClass, size_linked, size_allocated]; omega
  config := by rw [Model.withNewClass, config_linked]; rfl
  hook := by rw [Model.withNewClass, hook_linked]; rfl
  journal := by rw [Model.withNewClass, journal_linked]; rfl
  fixed id hk := by
    rw [node_withNewClass_of_ne hc (ne_next_of_knows hk)]
    split
    · exact TypeNode.fixed_mapScope fun _ _ => Scope.fixed_enterType rfl _ _
    · rfl
  types id hk := by
    have hnode := node_withNewClass_of_ne hc (ne_next_of_knows hk)
    by_cases hid : id = m.specializationScope made.template
    · rw [if_pos hid] at hnode
      refine ⟨[((m.newClass made).name, m.next)], ?_, fun entry hentry => ?_⟩
      · obtain ⟨a, ha⟩ := isContainer_iff.mp hc
        rw [madeSpecialization?, ← hid, type?_eq_get?_members] at hfree
        rw [← hid] at ha
        have hscope : (m.withNewClass made).scope? id =
            some (a.enterType (m.newClass made).entity m.next) := by
          rw [scope?, hnode, TypeNode.scope?_mapScope, ← scope?, ha, Option.map_some]
        rw [members_of_scope ha] at hfree ⊢
        rw [members_of_scope hscope, types_enterType]
        exact OrderedMap.entries_insert_of_get?_eq_none hfree _
      · obtain rfl := List.mem_singleton.mp hentry
        exact ⟨not_knows_next, made.template, ht, hid.symm⟩
    · rw [if_neg hid] at hnode
      refine ⟨[], ?_, List.forall_mem_nil _⟩
      rw [List.append_nil, Model.members, scope?, hnode, ← scope?, ← Model.members]
  untemplated id hk := by
    by_cases hid : id = m.next
    · rw [hid, node_withNewClass_next hc]
      rfl
    · have hscope : id ≠ m.specializationScope made.template := by
        rintro rfl
        exact hk (knows_of_isContainer hc)
      rw [node_withNewClass_of_ne hc hid, if_neg hscope, node_of_not_knows hk]
      rfl

theorem released (h : Adds none m m') (hnew : ¬ m.Knows id)
    (hfree : m.type? owner (m'.node id).name = none)
    (hself : ∀ s name, (m.members s).typeAliases.get? name ≠ some (.raw id)) :
    Adds none m (m'.released owner id) where
  size_le := by
    rw [Model.released, size_modifyNode, size_modifyNode]
    exact h.size_le
  config := h.config
  hook := h.hook
  journal := h.journal
  fixed j hk := by
    have hj : j ≠ id := by
      rintro rfl
      exact hnew hk
    refine Eq.trans ?_ (h.fixed j hk)
    rw [node_released_of_ne hj]
    split
    · refine TypeNode.fixed_mapScope fun a ha => ?_
      have haliases := h.typeAliases_eq hk
      rw [members_of_scope ha] at haliases
      have hkept : a.typeAliases.filter (fun _ ty => ty ≠ .raw id) = a.typeAliases := by
        refine OrderedMap.filter_eq_self fun name ty hty => decide_eq_true ?_
        rintro rfl
        rw [haliases] at hty
        exact hself j name hty
      rw [Scope.fixed, Scope.fixed, Scope.removeType, hkept]
    · rfl
  types j hk := by
    have hj : j ≠ id := by
      rintro rfl
      exact hnew hk
    obtain ⟨added, he, hadded⟩ := h.types j hk
    rw [Model.members, scope?, node_released_of_ne hj]
    split
    · next howner =>
      rw [TypeNode.scope?_mapScope, ← scope?]
      cases ha : m'.scope? j with
      | none =>
        rw [Model.members, ha] at he
        exact ⟨added, he, hadded⟩
      | some a =>
        rw [members_of_scope ha] at he
        rw [type?_eq_get?_members, ← howner] at hfree
        rw [Option.map_some, Option.getD_some, Scope.removeType]
        dsimp only
        split
        · exact ⟨_, OrderedMap.entries_erase_of_append hfree he, fun entry hentry =>
            hadded entry (List.mem_of_mem_filter hentry)⟩
        · exact ⟨added, he, hadded⟩
    · exact ⟨added, he, hadded⟩
  untemplated j hk := by
    have hsame : (m'.node j).SameKind ((m'.released owner id).node j) :=
      (sameKind_modifyScope _ _ _).trans (sameKind_modifyEntity _ _ _)
    rw [hsame.isTemplate, h.untemplated j hk]

end Adds

end Model

end ApiModel
