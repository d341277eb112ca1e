import ApiModel.Operation
import ApiModel.OrderedMap

/-!
The operations of a scope, grouped by name in the order of their arrival, and an index of their
aliases. An operation whose export name is taken gets an alias when it is added.
-/

namespace ApiModel

structure OperationTable where
  /-- The operations of each name. -/
  groups : OrderedMap String (List Operation)
  /-- For each alias the operations that came in with it, by name and position. -/
  aliases : OrderedMap String (List (String × Nat))
  deriving DecidableEq, Inhabited

namespace OperationTable

def empty : OperationTable := ⟨.empty, .empty⟩

def toList (t : OperationTable) : List Operation := t.groups.values.flatten

def names (t : OperationTable) : List String := t.groups.keys

def size (t : OperationTable) : Nat := t.toList.length

def isEmpty (t : OperationTable) : Bool := t.toList.isEmpty

def overloads (t : OperationTable) (name : String) : List Operation := (t.groups.get? name).getD []

def entry? (t : OperationTable) (place : String × Nat) : Option Operation :=
  (t.overloads place.1)[place.2]?

/-- The operations with the name or, when there are none, with the alias. -/
def find (t : OperationTable) (name : String) : List Operation :=
  match t.overloads name with
  | [] => ((t.aliases.get? name).getD []).filterMap t.entry?
  | ops => ops

def map (f : Operation → Operation) (t : OperationTable) : OperationTable :=
  { t with groups := t.groups.mapValues (·.map f) }

def exportTaken (t : OperationTable) (libraryPrefix text : String) : Bool :=
  t.toList.any fun op => op.exportName libraryPrefix = text

/-- Gives the operation the aliases `stem` with `n`, `n + 1` and so on, until its export name is
free or the trials are used up. One trial more than there are operations is enough. -/
def aliasUntilFree (t : OperationTable) (libraryPrefix stem : String)
    (setAlias : Entity → String → Entity) : (trials n : Nat) → Operation → Operation
  | 0, _, op => op
  | trials + 1, n, op =>
    let op := op.mapEntity (setAlias · (stem ++ toString n))
    if t.exportTaken libraryPrefix (op.exportName libraryPrefix) then
      aliasUntilFree t libraryPrefix stem setAlias trials (n + 1) op
    else op

/-- The operation with an alias that makes its export name free. An operation with an export name of
its own keeps it. The stem is the alias that the user gave, or else the name, and the numbers begin
behind the number of operations of that name. -/
def withFreeExportName (t : OperationTable) (libraryPrefix : String) (op : Operation) : Operation :=
  if t.exportTaken libraryPrefix (op.exportName libraryPrefix) &&
      op.entity.exportOverride.isNone then
    let next := (t.overloads op.name).length + 1
    match op.entity.aliasName, op.entity.autoAlias with
    | some stem, false =>
      t.aliasUntilFree libraryPrefix stem Entity.setAlias (t.size + 1) next op
    | _, _ => t.aliasUntilFree libraryPrefix op.name Entity.setAutoAlias (t.size + 1) next op
  else op

def push (t : OperationTable) (op : Operation) : OperationTable :=
  let group := t.overloads op.name
  let groups := t.groups.insert op.name (group ++ [op])
  match op.entity.aliasName with
  | some text =>
    let places := (t.aliases.get? text).getD []
    ⟨groups, t.aliases.insert text (places ++ [(op.name, group.length)])⟩
  | none => { t with groups }

/-- The form in which the table stores the operation: numbered, and under a free export name. -/
def stored (t : OperationTable) (libraryPrefix : String) (op : Operation) : Operation :=
  t.withFreeExportName libraryPrefix { op with index := (t.overloads op.name).length }

def insert (t : OperationTable) (libraryPrefix : String) (op : Operation) : OperationTable :=
  t.push (t.stored libraryPrefix op)

def firstSame? (t : OperationTable) (op : Operation) : Option Operation :=
  (t.overloads op.name).find? (·.SameSignature op)

/-- Marks the first operation on which `p` holds as ambiguous. -/
def markFirst (p : Operation → Bool) : List Operation → List Operation
  | [] => []
  | op :: ops => if p op then { op with ambiguous := true } :: ops else op :: markFirst p ops

def markSame (t : OperationTable) (op : Operation) : OperationTable :=
  match t.groups.get? op.name with
  | some group =>
    { t with groups := t.groups.insert op.name (markFirst (·.SameSignature op) group) }
  | none => t

@[simp] theorem toList_empty : empty.toList = [] := rfl

@[simp] theorem overloads_empty (name : String) : empty.overloads name = [] := rfl

theorem overloads_push (t : OperationTable) (op : Operation) (name : String) :
    (t.push op).overloads name =
      if op.name = name then t.overloads name ++ [op] else t.overloads name := by
  unfold push
  split <;> by_cases h : op.name = name <;> simp [overloads, h]

@[simp] theorem overloads_map (f : Operation → Operation) (t : OperationTable) (name : String) :
    (t.map f).overloads name = (t.overloads name).map f := by
  cases h : t.groups.get? name <;> simp [overloads, map, h]

end OperationTable

end ApiModel
