import ApiModel.Text.Quoted

/-!
What can go wrong while a model is built or queried: one constructor per cause, the wording of each
cause, and its code and advice in reports.
-/

namespace ApiModel

/-- The causes of failure. A failed registration reports the first cause it meets. -/
inductive ModelError where
  /-- A member of that sort and name exists already. -/
  | duplicateDeclaration (sort name scope : String)
  /-- No rule of lookup leads to a member of that sort and name. -/
  | unresolvedName (sort name scope : String)
  /-- Pointer and reference markers are mixed, or a template stands without arguments. -/
  | invalidQualifierCombination (name reason : String)
  /-- A flag that the kind of entity does not take. -/
  | invalidFlag (flag kind valid : String)
  /-- A class would become its own ancestor. -/
  | selfInheritance (className : String)
  /-- A default value calls something that cannot be seen. -/
  | misparsedDefaultValue (value operation : String)
  /-- A name without text, or with a line break inside. -/
  | invalidName (name reason : String)
  /-- The target cannot hold members of that sort. -/
  | invalidScope (scope what : String)
  /-- The entity has no owner that it could leave. -/
  | detached (name : String)
  /-- A template refuses its arguments. -/
  | templateArguments (template reason : String)
  deriving DecidableEq, Repr

namespace ModelError

def message : ModelError → String
  | duplicateDeclaration sort name scope => s!"{scope} already has a {sort} called {name}"
  | unresolvedName sort name scope => s!"{scope} has no {sort} called {name}"
  | invalidQualifierCombination name reason =>
    s!"invalid qualifier combination for {name}: {reason}"
  | invalidFlag flag kind valid =>
    s!"flag {flag} is not supported for {kind}. Supported flags are [{valid}]"
  | selfInheritance className => s!"class {className} cannot be parent of itself"
  | misparsedDefaultValue value operation =>
    s!"cannot parse default parameter value {value} for {operation}"
  | invalidName name reason =>
    let quoted := Text.Quoted.string name
    s!"invalid name {quoted}: {reason}"
  | invalidScope scope what => s!"{scope} cannot hold {what}"
  | detached name => s!"{name} has no owner"
  | templateArguments template reason => s!"template {template} {reason}"

def code : ModelError → String
  | duplicateDeclaration .. => "rbind::duplicate_declaration"
  | unresolvedName .. => "rbind::unresolved_name"
  | invalidQualifierCombination .. => "rbind::invalid_qualifier"
  | invalidFlag .. => "rbind::invalid_flag"
  | selfInheritance .. => "rbind::self_inheritance"
  | misparsedDefaultValue .. => "rbind::misparsed_default_value"
  | invalidName .. => "rbind::invalid_name"
  | invalidScope .. => "rbind::invalid_scope"
  | detached .. => "rbind::detached"
  | templateArguments .. => "rbind::template_arguments"

def help? : ModelError → Option String
  | duplicateDeclaration .. =>
    some "forward declarations may only be completed while they are still empty"
  | unresolvedName sort .. =>
    if sort = "type" then some "declare the type first or register a type-not-found hook"
    else none
  | _ => none

end ModelError

end ApiModel
