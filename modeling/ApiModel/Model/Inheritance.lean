import ApiModel.Model.Basic

/-!
Parents of classes, and what a class has through them: its flattened operations and attributes. The
flattened members are computed when they are asked for; nothing is stored.
-/

namespace ApiModel.Model

def parents (m : Model) (id : TypeId) : List TypeId :=
  match m.scope? id with
  | some scope => scope.parents.values
  | none => []

/-- The class derives from `ancestor` over at most `levels` steps. -/
def derivesWithin (m : Model) (ancestor : TypeId) : (levels : Nat) → TypeId → Bool
  | 0, _ => false
  | levels + 1, id =>
    (m.parents id).any fun parent => parent = ancestor || derivesWithin m ancestor levels parent

def derivesFrom (m : Model) (id ancestor : TypeId) : Bool :=
  m.derivesWithin ancestor (m.size + 1) id

/-- Makes `base` a parent of a class. Objects of the class have to pass for objects of `base`, so
the types of those are checked no more. -/
def addParent (id base : TypeId) : ModelM Unit := do
  let m ← get
  if !(m.node id).isClass then throw (.invalidScope (m.fullName id) "parent classes")
  if !(m.node base).isRecord then throw (.invalidScope (m.fullName base) "derived classes")
  if base = id || m.derivesFrom base id then throw (.selfInheritance (m.fullName id))
  let name := (m.node base).name
  if (m.scope? id).any fun s => s.parents.contains name then
    throw (.duplicateDeclaration "parent class" name (m.fullName id))
  let m := m.modifyNode base fun node => { node with checkType := false }
  set (m.modifyNode id (·.mapScope fun s => { s with parents := s.parents.insert name base }))

def inheritedForm (m : Model) (id : TypeId) (op : Operation) : Operation :=
  op.mapEntity fun e => e.clearAutoAlias.setOwner (some id) (m.scopePath id)

/-- Adds an operation of a parent to the table of a class. An operation of the same signature that
the class declares itself overrides it, one with the same origin is the same operation, and with any
other both are ambiguous. -/
def inherit (m : Model) (id : TypeId) (table : OperationTable) (op : Operation) : OperationTable :=
  match table.firstSame? op with
  | none => table.insert m.libraryPrefix (m.inheritedForm id op)
  | some present =>
    if present.baseClass = some id || present.baseClass = op.baseClass then table
    else
      (table.markSame op).insert m.libraryPrefix
        (m.inheritedForm id { op with ambiguous := true })

/-- The operations of a scope over at most `levels` levels of classes. -/
def operationTableTo (m : Model) : (levels : Nat) → TypeId → OperationTable
  | 0, _ => .empty
  | levels + 1, id =>
    match m.scope? id with
    | none => .empty
    | some scope =>
      if (m.node id).isClass then
        scope.parents.values.foldl
          (fun table parent => (operationTableTo m levels parent).toList.foldl (m.inherit id) table)
          scope.operations
      else scope.operations

def operationTable (m : Model) (id : TypeId) : OperationTable := m.operationTableTo (m.size + 1) id

def inheritAttribute (m : Model) (id : TypeId) (found : List Attribute) (a : Attribute) :
    List Attribute :=
  if found.any fun b => b.name = a.name then found
  else found ++ [{ a with entity := a.entity.setOwner (some id) (m.scopePath id) }]

def attributesTo (m : Model) : (levels : Nat) → TypeId → List Attribute
  | 0, _ => []
  | levels + 1, id =>
    match m.scope? id with
    | none => []
    | some scope =>
      scope.parents.values.foldl
        (fun found parent => (attributesTo m levels parent).foldl (m.inheritAttribute id) found)
        scope.attributes.values

/-- The attributes of a struct or class with all that it inherits. -/
def attributes (m : Model) (id : TypeId) : List Attribute := m.attributesTo (m.size + 1) id

def attribute? (m : Model) (id : TypeId) (name : String) : Option Attribute :=
  (m.attributes id).find? fun a => a.name = name

def hasConstructor (m : Model) (id : TypeId) : Bool :=
  let node := m.node id
  node.isRecord &&
    node.scope?.any fun s => (s.operations.overloads node.name).any Operation.isConstructor

end ApiModel.Model
