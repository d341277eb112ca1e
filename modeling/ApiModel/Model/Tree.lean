import ApiModel.Model.Basic

/-!
The tree of scopes: linking nodes into scopes and out of them, and the paths below a scope that was
renamed or moved.
-/

namespace ApiModel.Model

/-- The scope is `ancestor` or lies inside, seen through at most `climbs` owners. -/
def isWithinUpTo (m : Model) (ancestor : TypeId) : (climbs : Nat) → TypeId → Bool
  | 0, id => id = ancestor
  | climbs + 1, id =>
    id = ancestor ||
      match m.owner? id with
      | some owner => isWithinUpTo m ancestor climbs owner
      | none => false

/-- The scope is `ancestor` or lies inside. -/
def isWithin (m : Model) (id ancestor : TypeId) : Bool := m.isWithinUpTo ancestor m.size id

/-- Writes the path of a scope into all its members, and goes on in the types it owns, to the given
number of levels. -/
def refreshPathsTo : (levels : Nat) → TypeId → Model → Model
  | 0, _, m => m
  | levels + 1, id, m =>
    match m.scope? id with
    | none => m
    | some scope =>
      let path := m.scopePath id
      let m := m.modifyNode id (·.mapScope (·.setMemberPaths path))
      scope.types.values.foldl
        (fun m child =>
          if m.owner? child = some id then
            refreshPathsTo levels child (m.modifyNode child (·.mapEntity (·.setScopePath path)))
          else m)
        m

def refreshPaths (id : TypeId) (m : Model) : Model := refreshPathsTo (m.size + 1) id m

/-- Links a node into a scope, under its name and its alias. -/
def attach (scope id : TypeId) : ModelM Unit := do
  modify fun m => m.modifyNode id (·.mapEntity (·.setOwner (some scope) (m.scopePath scope)))
  requireContainer scope "members"
  modify fun m => m.modifyNode scope (·.mapScope (·.enterType (m.node id).entity id))
  modify (refreshPaths id)

/-- Takes a node out of the scope that owns it. The node itself stays. -/
def detach (id : TypeId) : ModelM Unit := do
  let m ← get
  match m.owner? id with
  | none => throw (.detached (m.fullName id))
  | some owner =>
    requireContainer owner "members"
    modify fun m => m.modifyNode owner (·.mapScope (·.removeType (m.node id).name id))
    modify fun m => m.modifyNode id (·.mapEntity (·.setOwner none ""))

/-- The type at a path of nested types. An empty part leads to the root. -/
def descend? (m : Model) : TypeId → List String → Option TypeId
  | id, [] => some id
  | id, part :: parts =>
    if part = "" then descend? m .root parts
    else (m.type? id part).bind fun next => descend? m next parts

def findNestedUpTo (m : Model) (parts : List String) : (climbs : Nat) → TypeId → Option TypeId
  | 0, scope => m.descend? scope parts
  | climbs + 1, scope =>
    (m.descend? scope parts).or ((m.owner? scope).bind (findNestedUpTo m parts climbs))

/-- The type at a path below a scope, or else below the nearest scope around it that has one. -/
def findNested (m : Model) (scope : TypeId) (path : String) : Option TypeId :=
  m.findNestedUpTo (Path.components path) m.size scope

end ApiModel.Model
