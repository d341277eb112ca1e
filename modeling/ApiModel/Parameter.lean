import ApiModel.Entity
import ApiModel.Text.Blank

/-!
Parameters of operations: a type and a name, and the text of the default value if there is one.
-/

namespace ApiModel

/-- The entity takes values from the other side: an attribute with a setter, or an output
parameter. -/
def Entity.isWritable (e : Entity) : Bool :=
  e.hasFlag .readWrite || e.hasFlag .inOut || e.hasFlag .out

structure Parameter where
  entity : Entity
  type : TypeRef
  defaultValue : Option String := none
  deriving DecidableEq, Repr

namespace Parameter

def ofName (name : String) (type : TypeRef) : Except ModelError Parameter := do
  return { entity := ← Entity.ofName name, type }

def name (p : Parameter) : String := p.entity.name

/-- Sets the default value without blanks at its end; a blank text means none. -/
def setDefault (p : Parameter) (text : String) : Parameter :=
  let kept := Text.trimEnd text.toList
  { p with defaultValue := if kept = [] then none else some (String.ofList kept) }

def setFlags (p : Parameter) (flags : List Flag) : Except ModelError Parameter := do
  return { p with entity := ← p.entity.setFlags .parameter flags }

def isWritable (p : Parameter) : Bool := p.entity.isWritable

def declaration (spelling : TypeId → String) (p : Parameter) : String :=
  p.type.render spelling ++ " " ++ p.name

def signature (spelling : TypeId → String) (p : Parameter) : String :=
  match p.defaultValue with
  | some value => p.declaration spelling ++ " = " ++ value
  | none => p.declaration spelling

end Parameter

end ApiModel
