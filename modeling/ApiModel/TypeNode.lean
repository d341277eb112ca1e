import ApiModel.Scope
import ApiModel.Script

/-!
Type nodes: basic types, enumerations, templates, and the containers namespace, struct and class.
-/

namespace ApiModel

inductive ContainerKind where
  | namespaceType
  | structType
  | classType
  deriving DecidableEq, Repr

inductive TypeKind where
  /-- A primitive type such as `int`. -/
  | basic
  | container (kind : ContainerKind) (members : Scope)
  /-- An enumeration with its values in order; a declaration may leave a value open. -/
  | enumeration (values : OrderedMap String (Option String))
  /-- A factory of classes named `Name<Arguments>`. -/
  | template (specializer : Specializer)
  deriving Inhabited

/-- The template and the arguments that a class was made from. -/
structure Specialization where
  template : TypeId
  arguments : List TypeRef
  deriving DecidableEq, Repr

structure TypeNode where
  entity : Entity
  kind : TypeKind
  typedef : Option TypeRef := none
  /-- Stands for "no value" of the type on the C side. -/
  invalidValue : String := "0"
  deleteMethod : Option String := none
  /-- Whether the dynamic type of incoming objects is checked. -/
  checkType : Bool := true
  /-- The library that provides the type. -/
  package : Option String := none
  specialization : Option Specialization := none
  isRoot : Bool := false
  deriving Inhabited

namespace PlainKind

def toTypeKind : PlainKind → TypeKind
  | basic => .basic
  | namespaceType => .container .namespaceType {}
  | structType => .container .structType {}
  | classType => .container .classType {}
  | enumeration => .enumeration .empty

end PlainKind

namespace TypeNode

def ofName (name : String) (kind : TypeKind) : Except ModelError TypeNode := do
  return { entity := ← Entity.ofName name, kind }

def specialized (name : String) (specialization : Specialization) : TypeNode where
  entity := { name }
  kind := .container .classType {}
  specialization := some specialization

def name (node : TypeNode) : String := node.entity.name

def fullName (node : TypeNode) : String := node.entity.fullName

def entityKind (node : TypeNode) : EntityKind :=
  match node.kind with
  | .basic => .basicType
  | .container .namespaceType _ => .namespaceType
  | .container .structType _ => .structType
  | .container .classType _ => .classType
  | .enumeration _ => .enumType
  | .template _ => .template

def isBasic (node : TypeNode) : Bool := node.entityKind = .basicType

def isNamespace (node : TypeNode) : Bool := node.entityKind = .namespaceType

def isClass (node : TypeNode) : Bool := node.entityKind = .classType

def isRecord (node : TypeNode) : Bool := node.entityKind = .structType || node.isClass

def isEnumeration (node : TypeNode) : Bool := node.entityKind = .enumType

def isTemplate (node : TypeNode) : Bool := node.entityKind = .template

def scope? (node : TypeNode) : Option Scope :=
  match node.kind with
  | .container _ members => some members
  | _ => none

def isContainer (node : TypeNode) : Bool := node.scope?.isSome

/-- A struct or class in which nothing was declared yet. -/
def isForward (node : TypeNode) : Bool := node.isRecord && node.scope?.all Scope.isEmpty

def values? (node : TypeNode) : Option (OrderedMap String (Option String)) :=
  match node.kind with
  | .enumeration values => some values
  | _ => none

def specializer? (node : TypeNode) : Option Specializer :=
  match node.kind with
  | .template specializer => some specializer
  | _ => none

/-- A basic type keeps its own spelling unless it has an export name of its own. -/
def exportName (node : TypeNode) (libraryPrefix : String) : String :=
  if node.isBasic && node.entity.exportOverride.isNone then node.fullName
  else node.entity.exportName libraryPrefix

/-- The name of the destructor on the C side: the one given, or the export name with `delete_`
behind the prefix of the library. -/
def deleteMethodName (node : TypeNode) (libraryPrefix : String) : String :=
  match node.deleteMethod with
  | some text => text
  | none =>
    let text := (node.entity.exportName libraryPrefix).toList
    if libraryPrefix.toList.isPrefixOf text then
      libraryPrefix ++ "delete_" ++ String.ofList (text.drop libraryPrefix.length)
    else libraryPrefix ++ "delete_" ++ node.name

def mapScope (f : Scope → Scope) (node : TypeNode) : TypeNode :=
  match node.kind with
  | .container kind members => { node with kind := .container kind (f members) }
  | _ => node

def mapEntity (f : Entity → Entity) (node : TypeNode) : TypeNode :=
  { node with entity := f node.entity }

def setFlags (node : TypeNode) (flags : List Flag) : Except ModelError TypeNode := do
  return { node with entity := ← node.entity.setFlags node.entityKind flags }

def addFlag (node : TypeNode) (flag : Flag) : Except ModelError TypeNode := do
  return { node with entity := ← node.entity.addFlag node.entityKind flag }

def setPackage (node : TypeNode) (package : String) : Except ModelError TypeNode := do
  return { ← node.addFlag .foreign with package := some package }

def addFlagIfValid (node : TypeNode) (flag : Flag) : TypeNode :=
  match node.addFlag flag with
  | .ok node => node
  | .error _ => node

/-- Completes a forward declaration: takes over the flags and the export names of a later one. -/
def adopt (node other : TypeNode) : TypeNode :=
  let node := other.entity.flags.foldl addFlagIfValid node
  let node := match other.entity.exportOverride with
    | some text => node.mapEntity (·.setExportName text)
    | none => node
  let node := match other.entity.aliasName with
    | some text => node.mapEntity (·.setAlias text)
    | none => node
  { node with
    deleteMethod := other.deleteMethod.or node.deleteMethod
    package := other.package.or node.package }

@[simp] theorem entity_mapScope (f : Scope → Scope) (node : TypeNode) :
    (node.mapScope f).entity = node.entity := by
  unfold mapScope
  split <;> rfl

@[simp] theorem scope?_mapScope (f : Scope → Scope) (node : TypeNode) :
    (node.mapScope f).scope? = node.scope?.map f := by
  cases h : node.kind <;> simp [mapScope, scope?, h]

@[simp] theorem entityKind_mapScope (f : Scope → Scope) (node : TypeNode) :
    (node.mapScope f).entityKind = node.entityKind := by
  unfold mapScope
  split
  · next kind members h => cases kind <;> simp [entityKind, h]
  · rfl

@[simp] theorem scope?_mapEntity (f : Entity → Entity) (node : TypeNode) :
    (node.mapEntity f).scope? = node.scope? := rfl

end TypeNode

end ApiModel
