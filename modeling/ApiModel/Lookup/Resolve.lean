import ApiModel.Lookup.Find
import ApiModel.Model.Member

/-!
Full lookup. Where reading lookup finds nothing it makes specializations of templates, and in the
end asks the hook. Both run scripts, which may look types up themselves.

Lookups inside of scripts are one level deeper than the lookup that runs the script, and there is a
limit to the depth; lookups of template arguments are not deeper, as arguments are shorter than the
query they stand in.
-/

namespace ApiModel

/-- Runs a script on a model and gives its result. A failure does not undo changes. -/
abbrev ScriptRunner := Script → Model → Except ModelError (Option TypeRef) × Model

namespace Script

def run (lookupType : TypeId → String → Search → ModelM TypeRef) : ScriptRunner
  | done result, m => (result, m)
  | nameOf id next, m => run lookupType (next (m.node id).name) m
  | signatureOf ty next, m => run lookupType (next (m.signature ty)) m
  | lookup scope name search next, m =>
    match lookupType scope name search m with
    | .ok ty m => run lookupType (next (.ok ty)) m
    | .error failure m => run lookupType (next (.error failure)) m
  | declare scope kind name next, m =>
    match (ModelM.ofExcept (TypeNode.ofName name kind.toTypeKind) >>= Model.addType scope) m with
    | .ok id m => run lookupType (next (.ok id)) m
    | .error failure m => run lookupType (next (.error failure)) m
  | addOperation scope op next, m =>
    match Model.addOperation scope op m with
    | .ok op m => run lookupType (next (.ok op)) m
    | .error failure m => run lookupType (next (.error failure)) m
  | installHook label answer next, m =>
    run lookupType next { m with hook := some ⟨label, answer⟩ }
  | removeHook next, m => run lookupType next { m with hook := none }

end Script

namespace Model

/-- A type that a hook may answer with: one of the model's, and no bare template. -/
def acceptsAnswer (m : Model) (ty : TypeRef) : Bool :=
  ty.base.index < m.size && !(ty.isRaw && (m.node ty.base).isTemplate)

/-- Asks the hook for a type. While it runs no hook is installed; when it has installed none itself,
it is installed again afterwards. -/
def consultHook (run : ScriptRunner) (scope : TypeId) (name : String) :
    ModelM (Option TypeRef) := do
  let m ← get
  match m.hook with
  | none => return none
  | some hook =>
    let entry : Consultation := ⟨hook.label, m.fullName scope, name⟩
    let (answer, after) :=
      run (hook.answer scope name) { m with hook := none, journal := m.journal ++ [entry] }
    set { after with hook := after.hook.or (some hook) }
    match answer with
    | .ok found => return found.filter after.acceptsAnswer
    | .error _ => return none

/-- Makes the specialization of a template. When its script fails the class is deleted again. -/
def makeSpecialization (run : ScriptRunner) (template : TypeId) (specializer : Specializer)
    (arguments : List TypeRef) : ModelM TypeId := do
  let m ← get
  let node := TypeNode.specialized (m.specializationName template arguments)
    { template, arguments }
  let id ← addType (m.specializationScope template) node
  let (result, after) := run (specializer.fill id arguments) (← get)
  set after
  match result with
  | .ok _ => return id
  | .error failure =>
    deleteType id
    throw failure

/-- The class that a template gives for arguments, made before or now; none if there is no template
of that name. -/
def instantiate (run : ScriptRunner) (lookupArgument : String → ModelM TypeRef) (scope : TypeId)
    (base : String) (arguments : List String) (search : Search) : ModelM (Option TypeRef) := do
  match (← get).findTemplate scope base search with
  | none => return none
  | some template =>
    let arguments ← arguments.mapM lookupArgument
    let m ← get
    match m.madeSpecialization? template arguments, (m.node template).specializer? with
    | some made, _ => return some (.raw made)
    | none, none => return none
    | none, some specializer =>
      let id ← makeSpecialization run template specializer arguments
      return some (.raw id)

/-- The type under a name of fewer than `bound` characters, without asking the hook for it. A part
of the name with template arguments may have to be made before the parts behind it can be found. -/
def resolveBelow (run : ScriptRunner) (lookupArgument : TypeId → String → Search → ModelM TypeRef)
    (scope : TypeId) (search : Search) : (bound : Nat) → String → ModelM (Option TypeRef)
  | 0, _ => return none
  | bound + 1, name => do
    match (← get).findPlain scope name search true with
    | some found => return some found
    | none =>
      match Template.split? name, Path.splitAfterTemplate? name with
      | some (base, arguments), _ =>
        instantiate run (lookupArgument scope · search) scope base arguments search
      | none, some (head, tail) =>
        match ← resolveBelow run lookupArgument scope search bound head with
        | some outer => return (← get).findPlain outer.base tail .local true
        | none => return none
      | none, none => return none

/-- The end of a lookup, with what the name in the query resolves to. The hook is asked for a name
that resolves to nothing, and the markers behind the name are put on. -/
def concludeLookup (run : ScriptRunner) (scope : TypeId) (normal name : String)
    (markers : List Char) (resolved : Option TypeRef) : ModelM TypeRef := do
  let found ←
    match resolved with
    | some found => pure (some found)
    | none => consultHook run scope name
  match found with
  | none => throw (.unresolvedName "type" normal ((← get).fullName scope))
  | some ty =>
    if ty.isRaw && ((← get).node ty.base).isTemplate then
      throw (.invalidQualifierCombination normal
        "a template cannot be used without template arguments")
    return TypeQuery.applyMarkers ty markers

/-- Looks up the type of a query in which brackets are nested less than `bound` deep. -/
def lookupTypeBelow (run : ScriptRunner) :
    (bound : Nat) → TypeId → String → Search → ModelM TypeRef
  | 0, scope, query, _ => do throw (.unresolvedName "type" query ((← get).fullName scope))
  | bound + 1, scope, query, search => do
    let normal := Name.normalizeQuery query
    if normal = "" then throw (.invalidName query "no type name")
    let (name, markers) ← ModelM.ofExcept (TypeQuery.split normal)
    let resolved ←
      resolveBelow run (lookupTypeBelow run bound) scope search (name.length + 1) name
    concludeLookup run scope normal name markers resolved

def lookupTypeWith (run : ScriptRunner) (scope : TypeId) (query : String) (search : Search) :
    ModelM TypeRef :=
  lookupTypeBelow run ((Name.normalizeQuery query).length + 1) scope query search

/-- The way scripts run at the limit of the depth: they fail. -/
def refuseScript : ScriptRunner :=
  fun _ m => (.error (.templateArguments "specialization" "is nested too deeply"), m)

def lookupTypeTo : (depth : Nat) → TypeId → String → Search → ModelM TypeRef
  | 0 => lookupTypeWith refuseScript
  | depth + 1 => lookupTypeWith (Script.run (lookupTypeTo depth))

def scriptDepth : Nat := 10000

def lookupType (scope : TypeId) (query : String) (search : Search) : ModelM TypeRef :=
  lookupTypeTo scriptDepth scope query search

def runScript : ScriptRunner := Script.run lookupType

end Model

end ApiModel
