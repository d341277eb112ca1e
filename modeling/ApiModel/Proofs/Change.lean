import ApiModel.Lookup.Find
import ApiModel.Proofs.Linking
import ApiModel.Proofs.Names

/-!
The elementary changes that everything done to a model is made of. Each constructor of `Change` is
one write together with what was checked before it, so that what a model keeps through all
operations is shown once for each write.
-/

namespace ApiModel

open Relation

structure Operation.IsFresh (op : Operation) : Prop where
  baseClass : op.baseClass = none
  ambiguous : op.ambiguous = false

structure Policy where
  /-- They add operations only that no scope has stored yet. -/
  freshOperations : Prop
  /-- They give no type, alias or typedef a name with a template bracket. -/
  plainNames : Prop
  /-- They define typedefs only of types that the model has. -/
  ownTypedefs : Prop

namespace Policy

variable {p : Policy} {text text' : String}

def free : Policy := ⟨False, False, False⟩

def operationsFresh : Policy := ⟨True, False, False⟩

def namesPlain : Policy := ⟨False, True, False⟩

def typedefsOwn : Policy := ⟨False, False, True⟩

def Takes (p : Policy) (op : Operation) : Prop := p.freshOperations → op.IsFresh

def Allows (p : Policy) (text : String) : Prop := p.plainNames → '<' ∉ text.toList

def AllowsTypedef (p : Policy) (m : Model) (target : TypeRef) : Prop :=
  p.ownTypedefs → m.Knows target.base

theorem allows_free (text : String) : Policy.free.Allows text :=
  False.elim

theorem Allows.mono (h : p.Allows text) (hs : text'.toList ⊆ text.toList) : p.Allows text' :=
  fun hp hm => h hp (hs hm)

theorem Allows.normalize (h : p.Allows text) (hn : Name.normalize text = .ok text') :
    p.Allows text' := fun hp hm => by
  obtain hm | hm := Name.mem_of_mem_normalize hn hm
  · exact h hp hm
  · exact absurd hm (by decide)

end Policy

/-- Whatever it learns, the script declares and adds only what the policy admits. -/
def Script.Within (p : Policy) : Script → Prop
  | done _ => True
  | nameOf _ next => ∀ name, (next name).Within p
  | signatureOf _ next => ∀ text, (next text).Within p
  | lookup _ _ _ next => ∀ result, (next result).Within p
  | declare _ _ name next => p.Allows name ∧ ∀ result, (next result).Within p
  | addOperation _ op next => p.Takes op ∧ ∀ result, (next result).Within p
  | installHook _ answer next => (∀ scope name, (answer scope name).Within p) ∧ next.Within p
  | removeHook next => next.Within p

def Hook.Within (p : Policy) (hook : Hook) : Prop :=
  ∀ scope name, (hook.answer scope name).Within p

def Specializer.Within (p : Policy) (specializer : Specializer) : Prop :=
  ∀ id arguments, (specializer.fill id arguments).Within p

namespace TypeNode

/-- A node that callers may declare. It has a name and perhaps annotations, but nothing was declared
inside. -/
structure IsFresh (p : Policy) (node : TypeNode) : Prop extends node.IsBlank where
  name : p.Allows node.name
  scopePath : p.Allows node.entity.scopePath
  aliasName : ∀ text, node.entity.aliasName = some text → p.Allows text
  specialization : node.specialization = none
  specializer : ∀ specializer, node.specializer? = some specializer → specializer.Within p

theorem isContainer_eq (node : TypeNode) :
    node.isContainer = (node.isNamespace || node.isRecord) := by
  rcases node with ⟨_, _ | ⟨_ | _ | _, _⟩ | _ | _⟩ <;> rfl

/-- The nodes agree in what a declaration fixes for good. -/
structure SameKind (a b : TypeNode) : Prop where
  entityKind : b.entityKind = a.entityKind
  specializer : b.specializer? = a.specializer?
  specialization : b.specialization = a.specialization

namespace SameKind

variable {a b c : TypeNode}

theorem refl (a : TypeNode) : a.SameKind a := ⟨rfl, rfl, rfl⟩

theorem trans (h : a.SameKind b) (h' : b.SameKind c) : a.SameKind c where
  entityKind := h'.entityKind.trans h.entityKind
  specializer := h'.specializer.trans h.specializer
  specialization := h'.specialization.trans h.specialization

theorem mapScope (f : Scope → Scope) (a : TypeNode) : a.SameKind (a.mapScope f) :=
  ⟨a.entityKind_mapScope f, a.specializer?_mapScope f, a.specialization_mapScope f⟩

theorem mapEntity (f : Entity → Entity) (a : TypeNode) : a.SameKind (a.mapEntity f) :=
  ⟨rfl, rfl, rfl⟩

theorem isClass (h : a.SameKind b) : b.isClass = a.isClass := by
  rw [TypeNode.isClass, TypeNode.isClass, h.entityKind]

theorem isRecord (h : a.SameKind b) : b.isRecord = a.isRecord := by
  rw [TypeNode.isRecord, TypeNode.isRecord, h.entityKind, h.isClass]

theorem isTemplate (h : a.SameKind b) : b.isTemplate = a.isTemplate := by
  rw [TypeNode.isTemplate, TypeNode.isTemplate, h.entityKind]

theorem isContainer (h : a.SameKind b) : b.isContainer = a.isContainer := by
  rw [isContainer_eq, isContainer_eq, isNamespace, isNamespace, h.entityKind, h.isRecord]

end SameKind

theorem Repathed.sameKind {a b : TypeNode} (h : a.Repathed b) : a.SameKind b :=
  ⟨h.entityKind_eq, h.specializer?_eq, h.specialization_eq⟩

/-- The nodes agree in all but annotations: flags, export names and the like. -/
structure Annotated (p : Policy) (a b : TypeNode) : Prop extends a.SameKind b where
  name : b.name = a.name
  scopePath : b.entity.scopePath = a.entity.scopePath
  owner : b.entity.owner = a.entity.owner
  isRoot : b.isRoot = a.isRoot
  scope : b.scope? = a.scope?
  aliasName : b.entity.aliasName = a.entity.aliasName ∨
    ∀ text, b.entity.aliasName = some text → p.Allows text

namespace Annotated

variable {p : Policy} {a b c : TypeNode}

theorem sameShape (h : a.Annotated p b) : a.SameShape b :=
  ⟨h.name, h.owner, h.isRoot, by rw [h.scope]⟩

theorem refl (a : TypeNode) : a.Annotated p a :=
  ⟨.refl a, rfl, rfl, rfl, rfl, rfl, .inl rfl⟩

theorem trans (h : a.Annotated p b) (h' : b.Annotated p c) : a.Annotated p c where
  toSameKind := h.toSameKind.trans h'.toSameKind
  name := h'.name.trans h.name
  scopePath := h'.scopePath.trans h.scopePath
  owner := h'.owner.trans h.owner
  isRoot := h'.isRoot.trans h.isRoot
  scope := h'.scope.trans h.scope
  aliasName := by
    obtain he | ha := h'.aliasName
    · rw [he]
      exact h.aliasName
    · exact .inr ha

theorem mapEntity {f : Entity → Entity} (a : TypeNode)
    (hf : (f a.entity).name = a.entity.name ∧ (f a.entity).scopePath = a.entity.scopePath ∧
      (f a.entity).owner = a.entity.owner)
    (ha : (f a.entity).aliasName = a.entity.aliasName ∨
      ∀ text, (f a.entity).aliasName = some text → p.Allows text) :
    a.Annotated p (a.mapEntity f) where
  toSameKind := .mapEntity f a
  name := hf.1
  scopePath := hf.2.1
  owner := hf.2.2
  isRoot := rfl
  scope := rfl
  aliasName := ha

theorem addFlag {flag : Flag} (h : a.addFlag flag = .ok b) : a.Annotated p b := by
  unfold TypeNode.addFlag Entity.addFlag at h
  cases hv : a.entityKind.validate [flag] with
  | error e => simp [hv, bind, Except.bind] at h
  | ok u =>
    simp only [hv, bind, Except.bind, pure, Except.pure, Except.ok.injEq] at h
    subst h
    refine mapEntity (f := fun e => if e.hasFlag flag then e else _) a ?_ ?_
    · split <;> exact ⟨rfl, rfl, rfl⟩
    · split <;> exact .inl rfl

theorem addFlagIfValid (flag : Flag) (a : TypeNode) : a.Annotated p (a.addFlagIfValid flag) := by
  unfold TypeNode.addFlagIfValid
  split
  · next h => exact addFlag h
  · exact .refl a

theorem addFlagsIfValid (flags : List Flag) (a : TypeNode) :
    a.Annotated p (flags.foldl TypeNode.addFlagIfValid a) := by
  induction flags generalizing a with
  | nil => exact .refl a
  | cons flag flags ih => exact (addFlagIfValid flag a).trans (ih _)

theorem setExportName (text : String) (a : TypeNode) :
    a.Annotated p (a.mapEntity (·.setExportName text)) :=
  mapEntity a ⟨rfl, rfl, rfl⟩ (.inl rfl)

theorem setAlias {text : String} (ht : p.Allows text) (a : TypeNode) :
    a.Annotated p (a.mapEntity (·.setAlias text)) := by
  refine mapEntity a ?_ ?_
  · unfold Entity.setAlias
    split <;> exact ⟨rfl, rfl, rfl⟩
  · unfold Entity.setAlias
    split
    · exact .inl rfl
    · exact .inr fun text' h => Option.some.inj h ▸ ht

theorem setOthers (a : TypeNode) (deleteMethod package : Option String) :
    a.Annotated p { a with deleteMethod, package } :=
  ⟨⟨rfl, rfl, rfl⟩, rfl, rfl, rfl, rfl, rfl, .inl rfl⟩

theorem adopt {other : TypeNode}
    (ha : ∀ text, other.entity.aliasName = some text → p.Allows text) (a : TypeNode) :
    a.Annotated p (a.adopt other) := by
  unfold TypeNode.adopt
  cases other.entity.exportOverride with
  | none =>
    cases h : other.entity.aliasName with
    | none => exact (addFlagsIfValid _ a).trans (setOthers _ _ _)
    | some text =>
      exact ((addFlagsIfValid _ a).trans (setAlias (ha text h) _)).trans (setOthers _ _ _)
  | some name =>
    have hnamed := (addFlagsIfValid (p := p) other.entity.flags a).trans (setExportName name _)
    cases h : other.entity.aliasName with
    | none => exact hnamed.trans (setOthers _ _ _)
    | some text => exact (hnamed.trans (setAlias (ha text h) _)).trans (setOthers _ _ _)

end Annotated

end TypeNode

namespace Model

variable {p : Policy} {m m' : Model}

def withTypedef (m : Model) (scope : TypeId) (name : String) (target : TypeRef) : Model :=
  m.modifyNode scope
    (·.mapScope fun s => { s with typeAliases := s.typeAliases.insert name target })

def ownedOperation (m : Model) (scope : TypeId) (op : Operation) : Operation :=
  { op with
    entity := op.entity.setOwner (some scope) (m.scopePath scope)
    baseClass := op.baseClass.or (some scope) }

def withOperation (m : Model) (scope : TypeId) (op : Operation) : Model :=
  m.modifyNode scope (·.mapScope fun s =>
    { s with operations := s.operations.insert m.libraryPrefix (m.ownedOperation scope op) })

def withConstant (m : Model) (scope : TypeId) (c : Constant) : Model :=
  let owned := { c with entity := c.entity.setOwner (some scope) (m.scopePath scope) }
  m.modifyNode scope (·.mapScope fun s =>
    { s with constants := s.constants.insert owned.name owned })

def withAttribute (m : Model) (scope : TypeId) (a : Attribute) : Model :=
  let owned := { a with entity := a.entity.setOwner (some scope) (m.scopePath scope) }
  m.modifyNode scope (·.mapScope fun s =>
    { s with attributes := s.attributes.insert owned.name owned })

def withParent (m : Model) (id base : TypeId) : Model :=
  m.modifyNode id (·.mapScope fun s =>
    { s with parents := s.parents.insert (m.node base).name base })

def withUsed (m : Model) (scope used : TypeId) : Model :=
  m.modifyNode scope (·.mapScope (·.use used))

/-- One write to a model. -/
inductive Change (p : Policy) (m : Model) : Model → Prop
  | declared {node : TypeNode} (fresh : node.IsFresh p) : Change p m (m.allocated node)
  /-- A class made from a template is named for the template and the arguments as they are now. -/
  | specialized {made : Specialization} (template : (m.node made.template).isTemplate = true) :
      Change p m (m.allocated
        (.specialized (m.specializationName made.template made.arguments) made))
  | annotated {id : TypeId} {f : TypeNode → TypeNode}
      (same : (m.node id).Annotated p (f (m.node id))) : Change p m (m.modifyNode id f)
  | released {id owner : TypeId} (member : m.Member id owner) : Change p m (m.released owner id)
  | named {id : TypeId} {name : String} (known : m.Knows id) (below : id ≠ .root)
      (loose : m.owner? id = none) (allowed : p.Allows name) : Change p m (m.named id name)
  | linked {scope id : TypeId} (known : m.Knows id) (below : id ≠ .root)
      (loose : m.owner? id = none) (container : (m.node scope).isContainer = true)
      (free : m.type? scope (m.node id).name = none) (outside : ¬ m.Inside scope id) :
      Change p m (m.linked scope id)
  /-- A namespace that was to be made inside of a type without members is listed nowhere. -/
  | stranded {scope id : TypeId} (known : m.Knows id) (below : id ≠ .root)
      (loose : m.owner? id = none) (empty : ∀ members, m.scope? id = some members → members = {})
      (scopeKnown : m.Knows scope) (container : (m.node scope).isContainer = false)
      (outside : ¬ m.Inside scope id) : Change p m (m.claimed scope id)
  | typedefAdded {scope : TypeId} {name : String} {target : TypeRef} (allowed : p.Allows name)
      (own : p.AllowsTypedef m target) : Change p m (m.withTypedef scope name target)
  | operationAdded {scope : TypeId} {op : Operation} (taken : p.Takes op) :
      Change p m (m.withOperation scope op)
  | constantAdded {scope : TypeId} {c : Constant} : Change p m (m.withConstant scope c)
  | attributeAdded {scope : TypeId} {a : Attribute} : Change p m (m.withAttribute scope a)
  | parentAdded {id base : TypeId} (isClass : (m.node id).isClass = true)
      (isRecord : (m.node base).isRecord = true) (other : base ≠ id)
      (apart : m.derivesFrom base id = false) : Change p m (m.withParent id base)
  | usedAdded {scope used : TypeId} (known : m.Knows used) : Change p m (m.withUsed scope used)
  | consulted {hook : Option Hook} {journal : List Consultation}
      (within : ∀ h, hook = some h → h.Within p) (later : m.journal <+: journal) :
      Change p m { m with hook, journal }

def Run (p : Policy) : Model → Model → Prop := ReflTransGen (Change p)

theorem sameKind_modifyNode {f : TypeNode → TypeNode}
    (hf : ∀ node : TypeNode, node.SameKind (f node)) (j id : TypeId) :
    (m.node id).SameKind ((m.modifyNode j f).node id) :=
  rel_modifyNode .refl (hf _) id

theorem sameKind_modifyScope (f : Scope → Scope) (j id : TypeId) :
    (m.node id).SameKind ((m.modifyNode j (·.mapScope f)).node id) :=
  sameKind_modifyNode (.mapScope f) j id

theorem sameKind_modifyEntity (f : Entity → Entity) (j id : TypeId) :
    (m.node id).SameKind ((m.modifyNode j (·.mapEntity f)).node id) :=
  sameKind_modifyNode (.mapEntity f) j id

theorem sameKind_linked (scope id j : TypeId) :
    (m.node j).SameKind ((m.linked scope id).node j) :=
  ((sameKind_modifyEntity _ _ _).trans (sameKind_modifyScope _ _ _)).trans
    ((repathed_refreshPaths _ _).node j).sameKind

@[simp] theorem size_linked (scope id : TypeId) : (m.linked scope id).size = m.size := by
  simp [linked, (repathed_refreshPaths _ _).size_eq, claimed, entered]

@[simp] theorem config_linked (scope id : TypeId) : (m.linked scope id).config = m.config :=
  (repathed_refreshPaths _ _).config_eq

@[simp] theorem hook_linked (scope id : TypeId) : (m.linked scope id).hook = m.hook :=
  (repathed_refreshPaths _ _).hook_eq

@[simp] theorem journal_linked (scope id : TypeId) : (m.linked scope id).journal = m.journal :=
  (repathed_refreshPaths _ _).journal_eq

theorem Change.size_le (h : Change p m m') : m.size ≤ m'.size := by
  cases h with
  | declared | specialized => simp
  | released => simp [Model.released]
  | named => simp [Model.named]
  | linked => simp
  | stranded => simp [claimed]
  | annotated => simp
  | typedefAdded => simp [withTypedef]
  | operationAdded => simp [withOperation]
  | constantAdded => simp [withConstant]
  | attributeAdded => simp [withAttribute]
  | parentAdded => simp [withParent]
  | usedAdded => simp [withUsed]
  | consulted => exact le_rfl

/-- A node as it is when its number is handed out. -/
inductive Born (p : Policy) (m : Model) : TypeNode → Prop
  | declared {node : TypeNode} (fresh : node.IsFresh p) : Born p m node
  | specialized {made : Specialization} (template : (m.node made.template).isTemplate = true) :
      Born p m (.specialized (m.specializationName made.template made.arguments) made)

theorem Born.node_cases {R : TypeNode → TypeNode → Prop} {node : TypeNode} (hb : Born p m node)
    (refl : ∀ node, R node node) (id : TypeId) :
    R (m.node id) ((m.allocated node).node id) ∨
      id = m.next ∧ Born p m ((m.allocated node).node id) := by
  by_cases h : id = m.next
  · rw [h, node_allocated_next]
    exact .inr ⟨rfl, hb⟩
  · rw [node_allocated_of_ne h]
    exact .inl (refl _)

/-- Nodes stay of their kind, and at most one is added. -/
theorem Change.kind_cases (h : Change p m m') (id : TypeId) :
    (m.node id).SameKind (m'.node id) ∨ id = m.next ∧ Born p m (m'.node id) := by
  cases h with
  | declared fresh => exact (Born.declared fresh).node_cases .refl id
  | specialized template => exact (Born.specialized template).node_cases .refl id
  | annotated same => exact .inl (rel_modifyNode .refl same id).toSameKind
  | released => exact .inl ((sameKind_modifyScope _ _ _).trans (sameKind_modifyEntity _ _ _))
  | named | stranded => exact .inl (sameKind_modifyEntity _ _ _)
  | linked => exact .inl (sameKind_linked _ _ _)
  | typedefAdded | operationAdded | constantAdded | attributeAdded | parentAdded | usedAdded =>
    exact .inl (sameKind_modifyScope _ _ _)
  | consulted => exact .inl (.refl _)

theorem Change.sameKind (h : Change p m m') {id : TypeId} (hk : m.Knows id) :
    (m.node id).SameKind (m'.node id) :=
  (h.kind_cases id).resolve_right fun hn => not_knows_next (hn.1 ▸ hk)

theorem Change.journal_prefix (h : Change p m m') : m.journal <+: m'.journal := by
  cases h with
  | consulted _ later => exact later
  | linked => simp
  | _ => exact List.prefix_rfl

theorem Change.config_eq (h : Change p m m') : m'.config = m.config := by
  cases h with
  | linked => exact config_linked _ _
  | _ => rfl

theorem SameShape.modifyScope {f : Scope → Scope} (id : TypeId)
    (hf : ∀ scope, (f scope).types = scope.types) : m.SameShape (m.modifyNode id (·.mapScope f)) :=
  .modifyNode id (.mapScope hf _)

theorem Change.isTree (h : Change p m m') (ht : m.IsTree) : m'.IsTree := by
  cases h with
  | declared fresh => exact ht.allocated fresh.toIsBlank
  | specialized =>
    refine ht.allocated ⟨rfl, fun scope hs => ?_, rfl⟩
    cases hs
    rfl
  | annotated same => exact ht.congr (.modifyNode _ same.sameShape)
  | released member => exact ht.released member
  | named _ _ loose => exact ht.named loose _
  | linked known below loose container free outside =>
    exact ht.linked known below loose container free outside
  | stranded known below loose _ scopeKnown container outside =>
    exact ht.claimed known below loose scopeKnown container outside
  | typedefAdded | operationAdded | constantAdded | attributeAdded | parentAdded =>
    exact ht.congr (.modifyScope _ fun _ => rfl)
  | usedAdded =>
    refine ht.congr (.modifyScope _ fun scope => ?_)
    unfold Scope.use
    split <;> rfl
  | consulted => exact ht.congr ⟨rfl, fun _ => .refl _⟩

/-- The types form a tree, and the programs that the model holds keep to the policy. -/
structure Sound (p : Policy) (m : Model) : Prop where
  isTree : m.IsTree
  hook : ∀ hook, m.hook = some hook → hook.Within p
  specializer : ∀ id specializer, (m.node id).specializer? = some specializer →
    specializer.Within p

theorem Change.sound (h : Change p m m') (hs : Sound p m) : Sound p m' where
  isTree := h.isTree hs.isTree
  hook := by
    cases h with
    | consulted within => exact within
    | linked =>
      rw [hook_linked]
      exact hs.hook
    | _ => exact hs.hook
  specializer id specializer hsp := by
    obtain hk | ⟨-, hb⟩ := h.kind_cases id
    · exact hs.specializer id specializer (hk.specializer ▸ hsp)
    · generalize m'.node id = node at hb hsp
      cases hb with
      | declared fresh => exact fresh.specializer specializer hsp
      | specialized => cases hsp

theorem Run.sound (h : Run p m m') (hs : Sound p m) : Sound p m' := by
  induction h with
  | refl => exact hs
  | tail _ h ih => exact h.sound ih

theorem Run.knows (h : Run p m m') {id : TypeId} (hk : m.Knows id) : m'.Knows id := by
  induction h with
  | refl => exact hk
  | tail _ h ih => exact lt_of_lt_of_le ih h.size_le

theorem Run.sameKind (h : Run p m m') {id : TypeId} (hk : m.Knows id) :
    (m.node id).SameKind (m'.node id) := by
  induction h with
  | refl => exact .refl _
  | tail hr h ih => exact ih.trans (h.sameKind (Run.knows hr hk))

theorem Run.isTemplate (h : Run p m m') {id : TypeId} (ht : (m.node id).isTemplate = true) :
    (m'.node id).isTemplate = true :=
  (h.sameKind (knows_of_isTemplate ht)).isTemplate.trans ht

theorem Run.config_eq (h : Run p m m') : m'.config = m.config := by
  induction h with
  | refl => rfl
  | tail _ h ih => exact h.config_eq.trans ih

theorem Run.journal_prefix (h : Run p m m') : m.journal <+: m'.journal := by
  induction h with
  | refl => exact List.prefix_rfl
  | tail _ h ih => exact ih.trans h.journal_prefix

end Model

end ApiModel
