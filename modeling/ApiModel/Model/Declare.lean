import ApiModel.Model.Tree

/-!
Declaring types, namespaces and typedefs, and deleting, renaming and moving them. A declaration
under a qualified name goes into the namespace it names, which is made where it is missing.
-/

namespace ApiModel.Model

/-- The type with that name in a scope, which is made as a namespace when it is missing. An empty
name leads to the root. -/
def enterNamespace (scope : TypeId) (name : String) : ModelM TypeId := do
  if name = "" then return .root
  match (← get).type? scope name with
  | some id =>
    requireContainer id "nested types"
    return id
  | none =>
    let node ← ModelM.ofExcept (TypeNode.ofName name PlainKind.namespaceType.toTypeKind)
    let id ← allocate node
    attach scope id
    return id

/-- The namespace at a path below a scope; its missing parts are made. -/
def addNamespace (scope : TypeId) (path : String) : ModelM TypeId := do
  let path ← ModelM.ofExcept (Name.normalize path)
  (Path.components path).foldlM enterNamespace scope

/-- The scope in which a declaration with that path lands: the scope itself when the path names it,
else the namespace at the path. -/
def declarationScope (scope : TypeId) (path : String) : ModelM TypeId := do
  if path = "" || (← get).namesScope scope path then return scope
  addNamespace scope path

/-- Enters a type into a scope. A namespace may be declared again, a struct or class that is still
empty is completed, and any other type of the same name is a duplicate, or is replaced when
`checkExists` does not hold. -/
def enterType (scope : TypeId) (node : TypeNode) (checkExists : Bool) : ModelM TypeId := do
  let m ← get
  match m.type? scope node.name with
  | some existing =>
    if (m.node existing).isNamespace && node.isNamespace then return existing
    if (m.node existing).isForward && node.isRecord then
      set (m.modifyNode existing (·.adopt node))
      return existing
    if checkExists then throw (.duplicateDeclaration "type" node.name (m.fullName scope))
    detach existing
  | none => pure ()
  let id ← allocate node
  attach scope id
  return id

def addTypeWith (scope : TypeId) (node : TypeNode) (checkExists : Bool) : ModelM TypeId := do
  requireContainer scope "types"
  let scope ← declarationScope scope node.entity.scopePath
  enterType scope node checkExists

def addType (scope : TypeId) (node : TypeNode) : ModelM TypeId := addTypeWith scope node true

def addTemplate (scope : TypeId) (name : String) (specializer : Specializer) : ModelM TypeId := do
  addType scope (← ModelM.ofExcept (TypeNode.ofName name (.template specializer)))

def addTypedef (scope : TypeId) (name : String) (target : TypeRef) : ModelM Unit := do
  requireContainer scope "typedefs"
  let name ← ModelM.ofExcept (Name.normalize name)
  let m ← get
  if (m.scope? scope).any fun s => s.types.contains name || s.typeAliases.contains name then
    throw (.duplicateDeclaration "type" name (m.fullName scope))
  set (m.modifyNode scope (·.mapScope fun s =>
    { s with typeAliases := s.typeAliases.insert name target }))

def addEnumValue (id : TypeId) (name : String) (value : Option String) : ModelM Unit := do
  let m ← get
  match (m.node id).values? with
  | some values =>
    set (m.modifyNode id fun node => { node with kind := .enumeration (values.insert name value) })
  | none => throw (.invalidScope (m.fullName id) "enum values")

def deleteType (id : TypeId) : ModelM Unit := detach id

def requireFree (scope : TypeId) (name : String) (id : TypeId) : ModelM Unit := do
  let m ← get
  if (m.type? scope name).any fun other => other ≠ id then
    throw (.duplicateDeclaration "type" name (m.fullName scope))

/-- Renames a type. A qualified name moves it into the namespace at that path below the root. -/
def renameType (id : TypeId) (name : String) : ModelM Unit := do
  let path ← ModelM.ofExcept (Name.normalize name)
  let target ←
    if Path.parent path = "" then
      match (← get).owner? id with
      | some owner => pure owner
      | none => throw (.detached ((← get).fullName id))
    else addNamespace .root (Path.parent path)
  requireFree target (Path.baseName path) id
  detach id
  modify fun m => m.modifyNode id (·.mapEntity (·.setName (Path.baseName path)))
  attach target id

/-- Moves a type into another scope, which must not lie inside the type. -/
def moveType (id scope : TypeId) : ModelM Unit := do
  requireContainer scope "types"
  let m ← get
  if m.isWithin scope id then
    throw (.invalidScope (m.fullName scope) ("its own ancestor " ++ m.fullName id))
  requireFree scope (m.node id).name id
  detach id
  attach scope id

end ApiModel.Model
