import ApiModel.Config
import ApiModel.TypeNode

/-!
The model of an interface: all type nodes in the order of their creation, the settings, and the hook
that is asked for unknown types. Types refer to each other by number, so the nodes form a tree, by
their owners, and a graph of parents and used namespaces.
-/

namespace ApiModel

structure Consultation where
  hook : String
  scope : String
  query : String
  deriving DecidableEq, Repr

structure Model where
  /-- All nodes, those without an owner included; the first is the root. -/
  nodes : Array TypeNode
  config : Config
  hook : Option Hook := none
  /-- All calls of hooks so far. -/
  journal : List Consultation := []

/-- A change of a model that may fail. What it did before it failed stays done. -/
abbrev ModelM := EStateM ModelError Model

def ModelM.ofExcept {α : Type} : Except ModelError α → ModelM α
  | .ok a => pure a
  | .error failure => throw failure

namespace ModelM

variable {α β : Type}

@[simp] theorem pure_apply (a : α) (m : Model) : (pure a : ModelM α) m = .ok a m := rfl

theorem bind_apply (x : ModelM α) (f : α → ModelM β) (m : Model) :
    (x >>= f) m = match x m with
      | .ok a m => f a m
      | .error failure m => .error failure m := by
  cases h : x m <;> simp [bind, EStateM.bind, h]

theorem bind_eq_ok {x : ModelM α} {f : α → ModelM β} {m m' : Model} {b : β}
    (h : (x >>= f) m = .ok b m') : ∃ a m₁, x m = .ok a m₁ ∧ f a m₁ = .ok b m' := by
  rw [bind_apply] at h
  cases hx : x m with
  | ok a m₁ =>
    rw [hx] at h
    exact ⟨a, m₁, rfl, h⟩
  | error failure m₁ =>
    rw [hx] at h
    cases h

@[simp] theorem get_apply (m : Model) : (get : ModelM Model) m = .ok m m := rfl

@[simp] theorem set_apply (m m' : Model) : (set m' : ModelM PUnit) m = .ok ⟨⟩ m' := rfl

@[simp] theorem modify_apply (f : Model → Model) (m : Model) :
    (modify f : ModelM PUnit) m = .ok ⟨⟩ (f m) := rfl

@[simp] theorem throw_apply (failure : ModelError) (m : Model) :
    (throw failure : ModelM α) m = .error failure m := rfl

@[simp] theorem throw_bind (failure : ModelError) (f : α → ModelM β) :
    (throw failure : ModelM α) >>= f = throw failure := rfl

@[simp] theorem ofExcept_ok (a : α) : ofExcept (.ok a) = pure a := rfl

@[simp] theorem ofExcept_error (failure : ModelError) :
    (ofExcept (.error failure) : ModelM α) = throw failure := rfl

end ModelM

namespace Model

/-- The node with the number; a number that was not handed out stands for a nameless basic type. -/
def node (m : Model) (id : TypeId) : TypeNode := m.nodes.getD id.index default

def size (m : Model) : Nat := m.nodes.size

def scope? (m : Model) (id : TypeId) : Option Scope := (m.node id).scope?

def owner? (m : Model) (id : TypeId) : Option TypeId := (m.node id).entity.owner

def type? (m : Model) (scope : TypeId) (name : String) : Option TypeId :=
  (m.scope? scope).bind (·.types.get? name)

def modifyNode (m : Model) (id : TypeId) (f : TypeNode → TypeNode) : Model :=
  { m with nodes := m.nodes.modify id.index f }

def libraryPrefix (m : Model) : String := m.config.libraryPrefix

def fullName (m : Model) (id : TypeId) : String := (m.node id).fullName

/-- The path in front of the names of the members of a scope; members of the root have none. -/
def scopePath (m : Model) (id : TypeId) : String :=
  if (m.node id).isRoot then "" else m.fullName id

/-- The path is the end of the path of the scope. -/
def namesScope (m : Model) (id : TypeId) (path : String) : Bool :=
  m.scopePath id = path || ("::" ++ path).toList.isSuffixOf (m.scopePath id).toList

def typeExportName (m : Model) (id : TypeId) : String := (m.node id).exportName m.libraryPrefix

def signature (m : Model) (ty : TypeRef) : String := ty.render m.fullName

def exportSignature (m : Model) (ty : TypeRef) : String := ty.render m.typeExportName

def requireContainer (id : TypeId) (what : String) : ModelM Unit := do
  let m ← get
  if (m.node id).isContainer then return () else throw (.invalidScope (m.fullName id) what)

/-- Adds a node that belongs to no scope yet. -/
def allocate (node : TypeNode) : ModelM TypeId := do
  let m ← get
  set { m with nodes := m.nodes.push node }
  return ⟨m.nodes.size⟩

theorem node_modifyNode (m : Model) (id id' : TypeId) (f : TypeNode → TypeNode)
    (h : id.index < m.size) :
    (m.modifyNode id f).node id' = if id = id' then f (m.node id') else m.node id' := by
  obtain ⟨i⟩ := id
  obtain ⟨j⟩ := id'
  simp only [size] at h
  simp only [node, modifyNode, Array.getD_eq_getD_getElem?, Array.getElem?_modify, TypeId.mk.injEq]
  by_cases hij : i = j
  · subst hij
    simp [h]
  · simp [hij]

@[simp] theorem size_modifyNode (m : Model) (id : TypeId) (f : TypeNode → TypeNode) :
    (m.modifyNode id f).size = m.size := by
  simp [size, modifyNode]

end Model

end ApiModel
