import ApiModel.DefaultValue
import ApiModel.Lookup.Find

/-!
Default values of parameters in the form that other languages can use: literals without the suffixes
of C, and calls by the full name of what they call.
-/

namespace ApiModel.Model

/-- The full name of what a default value calls: a type, else an operation of the scope or of the
type in front of its name. -/
def calleeName? (m : Model) (scope : TypeId) (callee : String) : Option String :=
  match m.findType scope callee .owners with
  | some ty => some (m.signature ty)
  | none =>
    let target :=
      if Path.parent callee = "" then some scope
      else (m.findType scope (Path.parent callee) .owners).map TypeRef.base
    target.bind fun id =>
      (m.findOperations id (Path.baseName callee)).head?.map (·.entity.fullName)

/-- The default value of a parameter as seen from a scope; `operation` tells whose parameter it is
if the value cannot be understood. -/
def normalizedDefault (m : Model) (scope : TypeId) (operation : String) (p : Parameter) :
    Except ModelError (Option String) :=
  match p.defaultValue with
  | none => .ok none
  | some value =>
    let base := m.node p.type.base
    if base.isBasic || p.type.isPointer then .ok (some (DefaultValue.clean base.name value))
    else
      match DefaultValue.splitCall? value with
      | none => .ok (some value)
      | some (callee, arguments) =>
        match m.calleeName? scope callee with
        | some name => .ok (some (name ++ "(" ++ arguments ++ ")"))
        | none => .error (.misparsedDefaultValue value operation)

def defaultValues (m : Model) (op : Operation) : Except ModelError (List (Option String)) :=
  op.parameters.mapM (m.normalizedDefault (op.owner.getD .root) (op.signature m.fullName))

end ApiModel.Model
