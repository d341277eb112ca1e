import ApiModel.Model.Inheritance

/-!
Walks over the tree of scopes: types, containers, constants and operations in the order of their
declaration, those of a type directly behind it.
-/

namespace ApiModel

structure Traversal where
  /-- Whether it goes into nested scopes. -/
  recursive : Bool := true
  /-- Whether it visits ignored entities, and their members. -/
  includeIgnored : Bool := false
  /-- Whether it visits what other libraries provide, and the members of that. -/
  includeForeign : Bool := false
  deriving DecidableEq, Repr

namespace Traversal

def shallow : Traversal := { recursive := false }

def everything : Traversal := { includeIgnored := true, includeForeign := true }

def admits (t : Traversal) (e : Entity) : Bool :=
  (t.includeIgnored || !e.ignored) && (t.includeForeign || !e.isForeign)

end Traversal

namespace Model

/-- The types that a scope owns, less the templates, which are no types. -/
def ownedTypes (m : Model) (scope : TypeId) : List TypeId :=
  match m.scope? scope with
  | some members =>
    members.types.values.filter fun id => m.owner? id = some scope && !(m.node id).isTemplate
  | none => []

def typesTo (m : Model) (t : Traversal) : (levels : Nat) → TypeId → List TypeId
  | 0, _ => []
  | levels + 1, scope =>
    ((m.ownedTypes scope).filter fun id => t.admits (m.node id).entity).flatMap fun id =>
      id :: if t.recursive then typesTo m t levels id else []

def types (m : Model) (scope : TypeId) (t : Traversal) : List TypeId :=
  m.typesTo t (m.size + 1) scope

/-- A scope and the containers below it. -/
def containers (m : Model) (scope : TypeId) (t : Traversal) : List TypeId :=
  scope :: (m.types scope t).filter fun id => (m.node id).isContainer

def visitedScopes (m : Model) (scope : TypeId) (t : Traversal) : List TypeId :=
  if t.recursive then m.containers scope t else [scope]

def constants (m : Model) (scope : TypeId) (t : Traversal) : List Constant :=
  (m.visitedScopes scope t).flatMap fun id =>
    (((m.scope? id).map fun s => s.constants.values).getD []).filter fun c => t.admits c.entity

/-- The operations of the visited scopes; classes contribute all that they inherit. -/
def allOperations (m : Model) (scope : TypeId) (t : Traversal) : List Operation :=
  (m.visitedScopes scope t).flatMap fun id =>
    (m.operationTable id).toList.filter fun op => t.admits op.entity

end Model

end ApiModel
