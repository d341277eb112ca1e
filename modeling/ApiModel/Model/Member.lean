import ApiModel.Model.Declare

/-!
Adding operations and constants to scopes, and making the members of one scope visible in another.
-/

namespace ApiModel.Model

/-- The scope in which a member with that path lands: the scope itself when the path names it, else
the nearest type at the path. Nothing is made here. -/
def memberScope (scope : TypeId) (path : String) (accept : TypeNode → Bool) : ModelM TypeId := do
  let m ← get
  if path = "" || m.namesScope scope path then return scope
  match (m.findNested scope path).filter fun id => accept (m.node id) with
  | some target => return target
  | none => throw (.unresolvedName "type" path (m.fullName scope))

/-- Stores an operation in a scope and returns the stored form. The scope becomes the owner and,
unless another scope declared the operation before, its declaring scope. -/
def storeOperation (scope : TypeId) (op : Operation) : ModelM Operation := do
  let m ← get
  let owned := { op with
    entity := op.entity.setOwner (some scope) (m.scopePath scope)
    baseClass := op.baseClass.or (some scope) }
  let table := ((m.scope? scope).getD {}).operations
  set (m.modifyNode scope (·.mapScope fun s =>
    { s with operations := s.operations.insert m.libraryPrefix owned }))
  return table.stored m.libraryPrefix owned

/-- Adds an operation and returns the stored form. A clash of export names is no failure: the
operation gets an alias. -/
def addOperation (scope : TypeId) (op : Operation) : ModelM Operation := do
  requireContainer scope "operations"
  let scope ← memberScope scope op.entity.scopePath TypeNode.isContainer
  storeOperation scope op

def addConstant (scope : TypeId) (c : Constant) : ModelM Constant := do
  requireContainer scope "consts"
  let scope ← declarationScope scope c.entity.scopePath
  let m ← get
  if (m.scope? scope).any fun s => s.constants.contains c.name then
    throw (.duplicateDeclaration "const" c.name (m.fullName scope))
  let owned := { c with entity := c.entity.setOwner (some scope) (m.scopePath scope) }
  set (m.modifyNode scope (·.mapScope fun s =>
    { s with constants := s.constants.insert owned.name owned }))
  return owned

/-- Makes the members of a scope visible in another without qualification. -/
def useNamespace (scope used : TypeId) : ModelM Unit := do
  requireContainer scope "used namespaces"
  requireContainer used "members"
  modify fun m => m.modifyNode scope (·.mapScope (·.use used))

end ApiModel.Model
