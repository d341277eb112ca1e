import ApiModel.StdTypes

/-!
New models: a root with the basic types of the configuration, and the standard types if they are
wanted.
-/

namespace ApiModel.Model

/-- Declares the basic types of the configuration. -/
def declareBuiltins (config : Config) : ModelM Unit := do
  config.builtinTypes.forM fun name => do
    let _ ← addType .root (← ModelM.ofExcept (TypeNode.ofName name .basic))
  config.builtinAliases.forM fun entry => do
    let node ← ModelM.ofExcept (TypeNode.ofName entry.name .basic)
    let _ ← addType .root (node.mapEntity (·.setExportName entry.exportName))

def rootOnly (config : Config) : Except ModelError Model := do
  let root ← TypeNode.ofName config.rootName PlainKind.namespaceType.toTypeKind
  return { nodes := #[{ root with isRoot := true }], config }

def create (config : Config) : Except ModelError Model := do
  let m ← rootOnly config
  let declare : ModelM Unit := do
    declareBuiltins config
    if config.stdTypes then StdTypes.declare
  match declare m with
  | .ok _ m => return m
  | .error failure _ => throw failure

end ApiModel.Model
