import ApiModel.Attribute

/-!
Operations: functions, methods and constructors, and the accessors made for attributes.
-/

namespace ApiModel

inductive Accessor where
  | getter (attributeName : String)
  | setter (attributeName : String)
  deriving DecidableEq, Repr

/-- A function, method or constructor; a constructor is an operation without a return type. -/
structure Operation where
  entity : Entity
  returnType : Option TypeRef := none
  parameters : List Parameter := []
  /-- The scope that first declared the operation. -/
  baseClass : Option TypeId := none
  /-- Two unrelated bases declare the same signature. -/
  ambiguous : Bool := false
  /-- The position among the operations of the same name. -/
  index : Nat := 0
  accessor : Option Accessor := none
  deriving DecidableEq, Repr, Inhabited

namespace Operation

def ofName (name : String) : Except ModelError Operation := do
  return { entity := ← Entity.ofName name }

def getter (a : Attribute) : Except ModelError Operation := do
  let op ← ofName ("get_" ++ a.name)
  return { op with returnType := some a.type.toConst, accessor := some (.getter a.name) }

def setter (a : Attribute) (void : TypeRef) : Except ModelError Operation := do
  let op ← ofName ("set_" ++ a.name)
  let value ← Parameter.ofName "value" a.type
  return { op with
    returnType := some void, parameters := [value], accessor := some (.setter a.name) }

def name (op : Operation) : String := op.entity.name

def owner (op : Operation) : Option TypeId := op.entity.owner

def setFlags (op : Operation) (flags : List Flag) : Except ModelError Operation := do
  return { op with entity := ← op.entity.setFlags .operation flags }

def mapEntity (f : Entity → Entity) (op : Operation) : Operation :=
  { op with entity := f op.entity }

def exportName (op : Operation) (libraryPrefix : String) : String :=
  op.entity.exportName libraryPrefix

def isConstructor (op : Operation) : Bool := op.returnType.isNone

def isStatic (op : Operation) : Bool := op.entity.hasFlag .static

def isExplicit (op : Operation) : Bool := op.entity.hasFlag .explicit

/-- The token of an operator: what follows `operator` in the name, unless an identifier goes on
there. -/
def operatorToken? (op : Operation) : Option String :=
  match op.name.toList with
  | 'o' :: 'p' :: 'e' :: 'r' :: 'a' :: 't' :: 'o' :: 'r' :: c :: cs =>
    if Text.isIdentChar c then none else some (String.ofList (c :: cs))
  | _ => none

/-- An operator other than subscript and call. -/
def isOperator (op : Operation) : Bool :=
  op.operatorToken?.any fun token => token ≠ "[]" && token ≠ "()"

/-- The owner is not the scope that declared the operation. -/
def isInherited (op : Operation) : Bool := op.baseClass ≠ op.owner

def SameSignature (a b : Operation) : Prop :=
  a.name = b.name ∧ a.parameters.map Parameter.type = b.parameters.map Parameter.type

instance (a b : Operation) : Decidable (a.SameSignature b) := by
  unfold SameSignature; infer_instance

/-- `return full::name(type a, type b = 1)`, with the given spelling of type nodes. -/
def signature (spelling : TypeId → String) (op : Operation) : String :=
  let parameters := ", ".intercalate (op.parameters.map (·.signature spelling))
  let call := op.entity.fullName ++ "(" ++ parameters ++ ")"
  match op.returnType with
  | some ty => ty.render spelling ++ " " ++ call
  | none => call

end Operation

end ApiModel
