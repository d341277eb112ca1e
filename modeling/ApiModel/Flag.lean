import ApiModel.Error

/-!
Flags that a declaration may carry, the kinds of entities, and which kind takes which flag.
-/

namespace ApiModel

inductive Flag where
  /-- Provided by another library. -/
  | foreign
  /-- Plain data, copied by value. -/
  | simple
  /-- A struct that acts as a map. -/
  | mapLike
  /-- An operation without a receiver. -/
  | static
  | explicit
  /-- An attribute that can be written. -/
  | readWrite
  /-- A parameter that is read and written. -/
  | inOut
  /-- A parameter that is only written. -/
  | out
  deriving DecidableEq, Repr

namespace Flag

def all : List Flag := [foreign, simple, mapLike, static, explicit, readWrite, inOut, out]

def token : Flag → String
  | foreign => "Extern"
  | simple => "Simple"
  | mapLike => "Map"
  | static => "S"
  | explicit => "explicit"
  | readWrite => "RW"
  | inOut => "IO"
  | out => "O"

def joinTokens (flags : List Flag) : String := ", ".intercalate (flags.map token)

def ofToken (text : String) : Except ModelError Flag :=
  match all.find? fun flag => flag.token = text with
  | some flag => .ok flag
  | none => .error (.invalidFlag text "any entity" (joinTokens all))

@[simp] theorem mem_all (flag : Flag) : flag ∈ all := by cases flag <;> decide

@[simp] theorem ofToken_token (flag : Flag) : ofToken flag.token = .ok flag := by
  cases flag <;> rfl

end Flag

inductive EntityKind where
  | basicType
  | namespaceType
  | structType
  | classType
  | enumType
  | template
  | operation
  | attributeMember
  | parameter
  | constant
  deriving DecidableEq, Repr

namespace EntityKind

def word : EntityKind → String
  | basicType => "basic type"
  | namespaceType => "namespace"
  | structType => "struct"
  | classType => "class"
  | enumType => "enum"
  | template => "template"
  | operation => "operation"
  | attributeMember => "attribute"
  | parameter => "parameter"
  | constant => "const"

def validFlags : EntityKind → List Flag
  | basicType | namespaceType | enumType | template | constant => [.foreign]
  | structType | classType => [.foreign, .simple, .mapLike]
  | operation => [.static, .explicit]
  | attributeMember => [.readWrite]
  | parameter => [.inOut, .out]

/-- Refuses the first flag that the kind does not take. -/
def validate (kind : EntityKind) (flags : List Flag) : Except ModelError Unit :=
  match flags.find? fun flag => !kind.validFlags.contains flag with
  | some flag => .error (.invalidFlag flag.token kind.word (Flag.joinTokens kind.validFlags))
  | none => .ok ()

theorem validate_eq_ok_iff {kind : EntityKind} {flags : List Flag} :
    kind.validate flags = .ok () ↔ ∀ flag ∈ flags, flag ∈ kind.validFlags := by
  unfold validate
  split
  · next flag h =>
    have hmem := List.mem_of_find?_eq_some h
    have hbad := List.find?_some h
    simp only [Bool.not_eq_true', List.contains_eq_mem, decide_eq_false_iff_not] at hbad
    simp only [reduceCtorEq, false_iff]
    exact fun hall => hbad (hall flag hmem)
  · next h => simpa using h

end EntityKind

end ApiModel
