import ApiModel.Model.Inheritance
import ApiModel.Name.Normal

/-!
Finding names as they stand. A name is sought in a scope: first as a whole among its types and
aliases, then part by part, then in the namespaces that the scope uses, and, unless the search is
local, in the same way in the scopes around it. The first hit counts.
-/

namespace ApiModel.Model

/-- What a scope has under a name, as a whole or part by part. `shorter` finds shorter names;
`follow` tells whether it may look into used namespaces. -/
def findInside (m : Model) (shorter : TypeId → String → Search → Bool → Option TypeRef)
    (scope : TypeId) (name : String) (search : Search) (follow : Bool) : Option TypeRef :=
  match m.scope? scope with
  | none => none
  | some members =>
    ((members.types.get? name).map .raw).or <| (members.typeAliases.get? name).or <|
      match Path.splitFirst? name with
      | none => none
      | some (head, tail) =>
        match if head = "" then some (.raw .root) else shorter scope head search follow with
        | some (.raw outer) => shorter outer tail .local true
        | _ => none

/-- The first hit in the namespaces that a scope uses; those that they use themselves do not
count. -/
def findInUsed (m : Model) (shorter : TypeId → String → Search → Bool → Option TypeRef)
    (scope : TypeId) (name : String) : Option TypeRef :=
  ((m.scope? scope).map Scope.used).bind fun used =>
    used.findSome? fun id => m.findInside shorter id name .local false

/-- The first hit in a scope and up to `climbs` scopes around it. -/
def findFrom (m : Model) (shorter : TypeId → String → Search → Bool → Option TypeRef)
    (name : String) : (climbs : Nat) → TypeId → Search → Bool → Option TypeRef
  | climbs, scope, search, follow =>
    if (m.scope? scope).isNone then none
    else
      (m.findInside shorter scope name search follow).or <|
        (if follow then m.findInUsed shorter scope name else none).or <|
          match climbs, search, m.owner? scope with
          | climbs + 1, .owners, some owner => findFrom m shorter name climbs owner .owners true
          | _, _, _ => none

/-- The type under a name of fewer than `bound` characters. -/
def findBelow (m : Model) : (bound : Nat) → TypeId → String → Search → Bool → Option TypeRef
  | 0, _, _, _, _ => none
  | bound + 1, scope, name, search, follow =>
    m.findFrom (findBelow m bound) name m.size scope search follow

/-- The type under a name without pointer and reference markers. -/
def findPlain (m : Model) (scope : TypeId) (name : String) (search : Search) (follow : Bool) :
    Option TypeRef :=
  m.findBelow (name.length + 1) scope name search follow

def constant? (m : Model) (scope : TypeId) (name : String) : Option Constant :=
  (m.scope? scope).bind (·.constants.get? name)

def findConstantNear (m : Model) (scope : TypeId) (name : String) : Option Constant :=
  (m.constant? scope name).or <|
    ((m.scope? scope).map Scope.used).bind fun used => used.findSome? fun id => m.constant? id name

def findConstantInside (m : Model) (scope : TypeId) (name : String) (search : Search)
    (follow : Bool) : Option Constant :=
  (m.constant? scope name).or <|
    if Path.parent name = "" then none
    else
      match m.findPlain scope (Path.parent name) search follow with
      | some (.raw outer) => m.findConstantNear outer (Path.baseName name)
      | _ => none

def findConstantFrom (m : Model) (name : String) :
    (climbs : Nat) → TypeId → Search → Option Constant
  | climbs, scope, search =>
    match m.scope? scope with
    | none => none
    | some members =>
      (m.findConstantInside scope name search true).or <|
        (members.used.findSome? fun id => m.findConstantInside id name .local false).or <|
          match climbs, search, m.owner? scope with
          | climbs + 1, .owners, some owner => findConstantFrom m name climbs owner .owners
          | _, _, _ => none

/-- The constant under a name as users write it. -/
def findConstant (m : Model) (scope : TypeId) (name : String) (search : Search) : Option Constant :=
  match Name.normalize name with
  | .ok name => m.findConstantFrom name m.size scope search
  | .error _ => none

def lookupConstant (m : Model) (scope : TypeId) (name : String) (search : Search) :
    Except ModelError Constant :=
  match m.findConstant scope name search with
  | some c => .ok c
  | none => .error (.unresolvedName "const" name (m.fullName scope))

/-- The operations of a scope with that name or else that alias; a class has those it inherits as
well. -/
def findOperations (m : Model) (scope : TypeId) (name : String) : List Operation :=
  if (m.node scope).isClass then (m.operationTable scope).find name
  else ((m.scope? scope).map fun s => s.operations.find name).getD []

def operations (m : Model) (scope : TypeId) (name : String) : Except ModelError (List Operation) :=
  match m.findOperations scope name with
  | [] => .error (.unresolvedName "operation" name (m.fullName scope))
  | ops => .ok ops

end ApiModel.Model
