import ApiModel.Text.Blank
import ApiModel.Text.Quoted

/-!
The settings that a model is created with, and what a configuration has to satisfy.
-/

namespace ApiModel

/-- A basic type whose C spelling differs from its name. -/
structure BuiltinAlias where
  name : String
  exportName : String
  deriving DecidableEq, Repr

structure Config where
  /-- The beginning of every mangled export name. -/
  libraryPrefix : String := "rbind_"
  rootName : String := "root"
  /-- The basic types of the root. -/
  builtinTypes : List String :=
    ["uint64", "int", "int64", "uint", "bool", "double", "float", "void", "char", "size_t"]
  builtinAliases : List BuiltinAlias :=
    [⟨"uchar", "unsigned char"⟩, ⟨"c_string", "char *"⟩, ⟨"const_c_string", "const char *"⟩]
  /-- Whether `std::vector`, `std::map` and `std::string` are declared. -/
  stdTypes : Bool := true
  deriving DecidableEq, Repr, Inhabited

inductive ReadFailure where
  | missing
  | notUtf8
  deriving DecidableEq, Repr

def ReadFailure.message : ReadFailure → String
  | missing => "No such file or directory (os error 2)"
  | notUtf8 => "stream did not contain valid UTF-8"

inductive ConfigError where
  /-- The file could not be read. -/
  | read (failure : ReadFailure)
  /-- The text is no configuration. -/
  | parse
  /-- A setting has a value that it must not have. -/
  | validation (reason : String)
  deriving DecidableEq, Repr

namespace ConfigError

/-- The text shown to the user; the reader of the format words its own errors. -/
def message? : ConfigError → Option String
  | read failure => some ("Failed to read config file: " ++ failure.message)
  | parse => none
  | validation reason => some ("Config validation error: " ++ reason)

def code : ConfigError → String
  | read _ => "rbind::config::read"
  | parse => "rbind::config::parse"
  | validation _ => "rbind::config::validation"

end ConfigError

namespace Config

def isQualified : List Char → Bool
  | ':' :: ':' :: _ => true
  | c :: cs => c = '.' || isQualified cs
  | [] => false

def isPrefixChar (c : Char) : Bool := c.isAlphanum || c = '_'

/-- Refuses a root name that is blank or qualified, and a prefix with a character that export names
do not have. -/
def validate (config : Config) : Except ConfigError Unit :=
  if Text.trim config.rootName.toList = [] then .error (.validation "root_name must not be empty")
  else if isQualified config.rootName.toList then
    .error (.validation ("root_name " ++ config.rootName ++ " must not be qualified"))
  else
    match config.libraryPrefix.toList.find? fun c => !isPrefixChar c with
    | some c =>
      .error (.validation ("cprefix contains invalid character " ++ Text.Quoted.char c))
    | none => .ok ()

end Config

end ApiModel
