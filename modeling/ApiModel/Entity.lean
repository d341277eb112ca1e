import ApiModel.Flag
import ApiModel.TypeRef
import ApiModel.Name.Export
import ApiModel.Name.Normal
import ApiModel.Name.Path

/-!
What every member of a model has: its name and the scope it belongs to, its alias and export name,
its flags, and a count of its changes.
-/

namespace ApiModel

/-- Name, owner and annotations of a type, operation, attribute, parameter or constant. -/
structure Entity where
  name : String
  /-- The path in front of the name: that of the scope which holds the entity, or before there is
  one, the path it was declared with. It is empty in the root. -/
  scopePath : String := ""
  owner : Option TypeId := none
  aliasName : Option String := none
  /-- The alias was made up to tell export names apart. -/
  autoAlias : Bool := false
  exportOverride : Option String := none
  /-- The export name when it was last asked for, forgotten with the next change. -/
  exportCache : Option String := none
  flags : List Flag := []
  ignored : Bool := false
  /-- One, and one more for each change. -/
  version : Nat := 1
  deriving DecidableEq, Repr, Inhabited

namespace Entity

/-- The entity that a declaration with a possibly qualified name introduces. -/
def ofName (name : String) : Except ModelError Entity := do
  let path ← Name.normalize name
  return { name := Path.baseName path, scopePath := Path.parent path }

def fullName (e : Entity) : String := Path.qualify e.scopePath e.name

def hasFlag (e : Entity) (flag : Flag) : Bool := e.flags.contains flag

/-- Another library provides the entity. -/
def isForeign (e : Entity) : Bool := e.hasFlag .foreign

/-- The export name as the naming fields give it: the override, else the mangled alias, else the
mangled full name. -/
def freshExportName (e : Entity) (libraryPrefix : String) : String :=
  match e.exportOverride, e.aliasName with
  | some text, _ => text
  | none, some text => ExportName.mangle libraryPrefix (Path.qualify e.scopePath text)
  | none, none => ExportName.mangle libraryPrefix e.fullName

/-- The export name: the override, else what was remembered, else the fresh one. -/
def exportName (e : Entity) (libraryPrefix : String) : String :=
  match e.exportOverride, e.exportCache with
  | some text, _ => text
  | none, some text => text
  | none, none => e.freshExportName libraryPrefix

/-- Asks for the export name and remembers it until the next change. An override is not
remembered. -/
def askExportName (e : Entity) (libraryPrefix : String) : String × Entity :=
  let text := e.exportName libraryPrefix
  (text, if e.exportOverride.isSome then e else { e with exportCache := some text })

/-- Counts a change and forgets the remembered export name. -/
def touch (e : Entity) : Entity := { e with exportCache := none, version := e.version + 1 }

def setIgnored (e : Entity) (ignored : Bool) : Entity := { e with ignored }.touch

def setExportName (e : Entity) (text : String) : Entity :=
  { e with exportOverride := some text }.touch

/-- Gives the entity an alias; an empty one is not taken. -/
def setAlias (e : Entity) (text : String) : Entity :=
  if text = "" then e else { e with aliasName := some text, autoAlias := false }.touch

def setAutoAlias (e : Entity) (text : String) : Entity :=
  { e with aliasName := some text, autoAlias := true }.touch

/-- Takes an alias that was made up away. -/
def clearAutoAlias (e : Entity) : Entity :=
  if e.autoAlias then { e with aliasName := none, autoAlias := false }.touch else e

def setOwner (e : Entity) (owner : Option TypeId) (scopePath : String) : Entity :=
  { e with owner, scopePath }.touch

def setScopePath (e : Entity) (scopePath : String) : Entity := { e with scopePath }.touch

def setName (e : Entity) (name : String) : Entity := { e with name }.touch

def setFlags (e : Entity) (kind : EntityKind) (flags : List Flag) : Except ModelError Entity := do
  kind.validate flags
  return { e with flags }.touch

/-- Adds a flag that the kind takes; one that is present changes nothing. -/
def addFlag (e : Entity) (kind : EntityKind) (flag : Flag) : Except ModelError Entity := do
  kind.validate [flag]
  return if e.hasFlag flag then e else { e with flags := e.flags ++ [flag] }.touch

@[simp] theorem fullName_touch (e : Entity) : e.touch.fullName = e.fullName := rfl

@[simp] theorem exportName_touch (e : Entity) (libraryPrefix : String) :
    e.touch.exportName libraryPrefix = e.freshExportName libraryPrefix := by
  cases h : e.exportOverride <;> simp [exportName, touch, freshExportName, h, fullName]

@[simp] theorem fullName_setOwner (e : Entity) (owner : Option TypeId) (scopePath : String) :
    (e.setOwner owner scopePath).fullName = Path.qualify scopePath e.name := rfl

end Entity

end ApiModel
