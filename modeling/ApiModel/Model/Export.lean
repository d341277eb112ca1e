import ApiModel.Model.Basic

/-!
Operations on the C side. Methods get their object as a first parameter, and all types but the basic
ones are passed behind exactly one pointer.
-/

namespace ApiModel.Model

/-- A type as an operation passes it on the C side. -/
def passedType (m : Model) (ty : TypeRef) : String :=
  m.exportSignature (if (m.node ty.base).isBasic then ty else ty.toSinglePointer)

def receiverClass? (m : Model) (op : Operation) : Option TypeId :=
  op.owner.filter fun owner => (m.node owner).isRecord

/-- The operation works on an object of its owner. -/
def isInstanceMethod (m : Model) (op : Operation) : Bool :=
  !op.isConstructor && !op.isStatic && (m.receiverClass? op).isSome

/-- The parameters on the C side, with the object of an instance method in front. -/
def exportParameters (m : Model) (op : Operation) : Except ModelError (List Parameter) := do
  match m.receiverClass? op with
  | some owner =>
    if m.isInstanceMethod op then
      let object ← Parameter.ofName (m.libraryPrefix ++ "obj") (.raw owner)
      return (← object.setFlags [.inOut]) :: op.parameters
    else return op.parameters
  | none => return op.parameters

/-- What the operation returns on the C side; a constructor returns the new object. -/
def exportReturn (m : Model) (op : Operation) : String :=
  match op.returnType, m.receiverClass? op with
  | some ty, _ => m.passedType ty
  | none, some owner => m.exportSignature (.pointer (.raw owner))
  | none, none => "void"

def exportDeclaration (m : Model) (op : Operation) : Except ModelError String := do
  let parameters ← m.exportParameters op
  let texts := parameters.map fun p => m.passedType p.type ++ " " ++ p.name
  return m.exportReturn op ++ " " ++ op.exportName m.libraryPrefix ++
    "(" ++ ", ".intercalate texts ++ ")"

/-- How to call the operation; an inherited one is qualified by the class that declares it. -/
def callTarget (m : Model) (op : Operation) : String :=
  match op.baseClass with
  | some base => if op.isInherited then m.fullName base ++ "::" ++ op.name else op.name
  | none => op.name

end ApiModel.Model
