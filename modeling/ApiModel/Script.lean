import ApiModel.Operation

/-!
Programs that a model runs while it looks up a type: the answers of a hook, and the code that fills
a specialization of a template. They are data, so that a model can hold them and so that everything
they can do to a model is listed here.
-/

namespace ApiModel

/-- Whether a lookup may go on in the scopes around its own. -/
inductive Search where
  /-- Only the scope, the scopes nested in it, and the namespaces it uses. -/
  | local
  /-- The scopes around it as well. -/
  | owners
  deriving DecidableEq, Repr, Inhabited

/-- The kinds of types that need no further data to be declared. -/
inductive PlainKind where
  | basic
  | namespaceType
  | structType
  | classType
  | enumeration
  deriving DecidableEq, Repr

/-- A program on a model. Each step names what to do and how to go on with its result; a failure is
a result as well, so the program decides what follows. -/
inductive Script where
  /-- The end, with a type if the program found one. -/
  | done (result : Except ModelError (Option TypeRef))
  /-- Reads the simple name of a type. -/
  | nameOf (id : TypeId) (next : String → Script)
  /-- Reads the written form of a type. -/
  | signatureOf (type : TypeRef) (next : String → Script)
  /-- Looks a type up. -/
  | lookup (scope : TypeId) (name : String) (search : Search)
    (next : Except ModelError TypeRef → Script)
  /-- Declares a type. -/
  | declare (scope : TypeId) (kind : PlainKind) (name : String)
    (next : Except ModelError TypeId → Script)
  /-- Adds an operation to a scope. -/
  | addOperation (scope : TypeId) (operation : Operation)
    (next : Except ModelError Operation → Script)
  /-- Installs a hook, given by its label and its answers. -/
  | installHook (label : String) (answer : TypeId → String → Script) (next : Script)
  /-- Removes the installed hook. -/
  | removeHook (next : Script)
  deriving Inhabited

/-- A program that is asked for a type which no other rule finds, with the scope and the name of the
lookup, which has no pointer or reference markers left. -/
structure Hook where
  label : String
  answer : TypeId → String → Script

/-- A template's program for a new specialization, run with the new class and its arguments. -/
structure Specializer where
  name : String
  fill : TypeId → List TypeRef → Script

namespace Script

def finish : Script := done (.ok none)

def fail (failure : ModelError) : Script := done (.error failure)

/-- Goes on with a result, and ends by a failure. -/
def proceed {α : Type} (next : α → Script) : Except ModelError α → Script
  | .ok result => next result
  | .error failure => fail failure

def builtin (name : String) (next : TypeRef → Script) : Script :=
  lookup .root name .local (proceed next)

def addOperations (scope : TypeId) : List Operation → Script → Script
  | [], next => next
  | op :: ops, next => addOperation scope op (proceed fun _ => addOperations scope ops next)

end Script

end ApiModel
