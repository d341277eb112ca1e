import ApiModel.Parameter

/-!
Attributes: the data members of structs and classes.
-/

namespace ApiModel

structure Attribute where
  entity : Entity
  type : TypeRef
  deriving DecidableEq, Repr

namespace Attribute

def ofName (name : String) (type : TypeRef) : Except ModelError Attribute := do
  return { entity := ← Entity.ofName name, type }

def name (a : Attribute) : String := a.entity.name

def setFlags (a : Attribute) (flags : List Flag) : Except ModelError Attribute := do
  return { a with entity := ← a.entity.setFlags .attributeMember flags }

def isWritable (a : Attribute) : Bool := a.entity.isWritable

/-- Type and name, with the given spelling of type nodes. -/
def signature (spelling : TypeId → String) (a : Attribute) : String :=
  a.type.render spelling ++ " " ++ a.name

end Attribute

end ApiModel
