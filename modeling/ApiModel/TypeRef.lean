/-!
References to types: the number of a type node under any layers of pointer, reference and const.
-/

namespace ApiModel

structure TypeId where
  index : Nat
  deriving DecidableEq, Repr, Inhabited

def TypeId.root : TypeId := ⟨0⟩

/-- A type as operations and attributes use it. -/
inductive TypeRef where
  /-- The type itself. -/
  | raw (id : TypeId)
  | pointer (inner : TypeRef)
  | reference (inner : TypeRef)
  | const (inner : TypeRef)
  deriving DecidableEq, Repr, Inhabited

namespace TypeRef

def base : TypeRef → TypeId
  | raw id => id
  | pointer inner | reference inner | const inner => inner.base

def toConst : TypeRef → TypeRef
  | const inner => const inner
  | ty => const ty

def dropLayer : TypeRef → TypeRef
  | raw id => raw id
  | pointer inner | reference inner | const inner => inner

def dropConst : TypeRef → TypeRef
  | const inner => inner.dropConst
  | ty => ty

def unqualified (ty : TypeRef) : TypeRef := raw ty.base

def isRaw : TypeRef → Bool
  | raw _ => true
  | _ => false

def isConst : TypeRef → Bool
  | raw _ => false
  | const _ => true
  | pointer inner | reference inner => inner.isConst

def isPointer : TypeRef → Bool
  | pointer _ => true
  | const inner => inner.isPointer
  | _ => false

def isReference : TypeRef → Bool
  | reference _ => true
  | const inner => inner.isReference
  | _ => false

def pointerDepth : TypeRef → Nat
  | raw _ => 0
  | pointer inner => inner.pointerDepth + 1
  | reference inner | const inner => inner.pointerDepth

def toSinglePointer (ty : TypeRef) : TypeRef :=
  pointer (if ty.isConst then ty.unqualified.toConst else ty.unqualified)

def renderConst (inner : TypeRef) (text : String) : String :=
  if !"const ".toList.isPrefixOf text.toList then "const " ++ text
  else if inner.isReference then text
  else text ++ " const"

def render (spelling : TypeId → String) : TypeRef → String
  | raw id => spelling id
  | pointer inner => inner.render spelling ++ "*"
  | reference inner => inner.render spelling ++ "&"
  | const inner => renderConst inner (inner.render spelling)

@[simp] theorem base_toConst (ty : TypeRef) : ty.toConst.base = ty.base := by cases ty <;> rfl

@[simp] theorem base_dropConst (ty : TypeRef) : ty.dropConst.base = ty.base := by
  induction ty with
  | const inner ih => exact ih
  | _ => rfl

@[simp] theorem base_dropLayer (ty : TypeRef) : ty.dropLayer.base = ty.base := by cases ty <;> rfl

@[simp] theorem base_toSinglePointer (ty : TypeRef) : ty.toSinglePointer.base = ty.base := by
  unfold toSinglePointer
  split <;> simp [base, unqualified]

@[simp] theorem toConst_toConst (ty : TypeRef) : ty.toConst.toConst = ty.toConst := by
  cases ty <;> rfl

end TypeRef

end ApiModel
