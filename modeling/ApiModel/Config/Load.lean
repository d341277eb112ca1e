import ApiModel.Config
import ApiModel.Toml.Document

/-!
Loading configurations. Missing keys keep their defaults, unknown keys play no role, and a value of
the wrong type is refused.
-/

namespace ApiModel.Config

open Toml (Value Entries)

def text? : Value → Option String
  | .text text => some text
  | _ => none

def boolean? : Value → Option Bool
  | .boolean value => some value
  | _ => none

def texts? : Value → Option (List String)
  | .array items => items.mapM text?
  | _ => none

def aliasOfEntries? (entries : Entries) : Option BuiltinAlias := do
  return ⟨← text? (← entries.get? "name"), ← text? (← entries.get? "cname")⟩

/-- The alias of a table, or of an array that begins with the two values. -/
def builtinAlias? : Value → Option BuiltinAlias
  | .table _ entries => aliasOfEntries? entries
  | .array (name :: exportName :: _) => do return ⟨← text? name, ← text? exportName⟩
  | _ => none

def builtinAliases? : Value → Option (List BuiltinAlias)
  | .array items => items.mapM builtinAlias?
  | .tables items => items.mapM aliasOfEntries?
  | _ => none

/-- The value under a key, or the default when the key is missing. -/
def setting {α : Type} (entries : Entries) (key : String) (read : Value → Option α)
    (otherwise : α) : Option α :=
  match entries.get? key with
  | some value => read value
  | none => some otherwise

def ofEntries? (entries : Entries) : Option Config := do
  let standard : Config := {}
  return {
    libraryPrefix := ← setting entries "cprefix" text? standard.libraryPrefix
    rootName := ← setting entries "root_name" text? standard.rootName
    builtinTypes := ← setting entries "builtin_types" texts? standard.builtinTypes
    builtinAliases := ← setting entries "builtin_alias" builtinAliases? standard.builtinAliases
    stdTypes := ← setting entries "std_types" boolean? standard.stdTypes }

def ofText (text : String) : Except ConfigError Config :=
  match (Toml.document? text.toList).bind ofEntries? with
  | none => .error .parse
  | some config => do
    config.validate
    return config

def ofFile (content : Option ByteArray) : Except ConfigError Config :=
  match content with
  | none => .error (.read .missing)
  | some bytes =>
    match String.fromUTF8? bytes with
    | none => .error (.read .notUtf8)
    | some text => ofText text

end ApiModel.Config
