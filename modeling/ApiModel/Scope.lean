import ApiModel.Constant
import ApiModel.OperationTable

/-!
The members of a namespace, struct or class.
-/

namespace ApiModel

structure Scope where
  types : OrderedMap String TypeId := .empty
  /-- Further names of types: aliases of the types above, and typedefs. -/
  typeAliases : OrderedMap String TypeRef := .empty
  constants : OrderedMap String Constant := .empty
  operations : OperationTable := .empty
  /-- The scopes whose members are visible here without qualification. -/
  used : List TypeId := []
  attributes : OrderedMap String Attribute := .empty
  /-- The direct bases of a class, each under the name that it had when it was added. -/
  parents : OrderedMap String TypeId := .empty
  deriving DecidableEq, Inhabited

namespace Scope

/-- Nothing was declared inside; aliases and used namespaces do not count. -/
def isEmpty (s : Scope) : Bool :=
  s.types.isEmpty && s.constants.isEmpty && s.operations.isEmpty && s.attributes.isEmpty &&
    s.parents.isEmpty

def use (s : Scope) (id : TypeId) : Scope :=
  if s.used.contains id then s else { s with used := s.used ++ [id] }

def setMemberPaths (path : String) (s : Scope) : Scope :=
  { s with
    operations := s.operations.map (·.mapEntity (·.setScopePath path))
    constants := s.constants.mapValues fun c => { c with entity := c.entity.setScopePath path }
    attributes := s.attributes.mapValues fun a => { a with entity := a.entity.setScopePath path } }

def enterType (s : Scope) (entity : Entity) (id : TypeId) : Scope :=
  let s := { s with types := s.types.insert entity.name id }
  match entity.aliasName with
  | some text => { s with typeAliases := s.typeAliases.insert text (.raw id) }
  | none => s

def removeType (s : Scope) (name : String) (id : TypeId) : Scope :=
  { s with
    types := if s.types.get? name = some id then s.types.erase name else s.types
    typeAliases := s.typeAliases.filter fun _ ty => ty ≠ .raw id }

end Scope

end ApiModel
