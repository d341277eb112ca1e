import ApiModel.Entity
import ApiModel.Text.Blank

/-!
Named constants: a name and the text of the value, whose words may be names of other constants.
-/

namespace ApiModel

structure Constant where
  entity : Entity
  value : String
  deriving DecidableEq, Repr

namespace Constant

def ofName (name value : String) : Except ModelError Constant := do
  return { entity := ← Entity.ofName name, value := String.ofList (Text.trim value.toList) }

def name (c : Constant) : String := c.entity.name

def setFlags (c : Constant) (flags : List Flag) : Except ModelError Constant := do
  return { c with entity := ← c.entity.setFlags .constant flags }

def signature (c : Constant) : String := c.entity.fullName ++ " = " ++ c.value

/-- The words of a text between its spaces; two spaces have an empty word between them. -/
def words : List Char → List (List Char)
  | [] => [[]]
  | ' ' :: cs => [] :: words cs
  | c :: cs => Path.consPart c (words cs)

/-- A word of the value on the C side: one that begins with an ASCII letter is taken for a constant
of the same scope and replaced by its export name. -/
def exportWord (libraryPrefix : String) (c : Constant) (word : List Char) : String :=
  if word.head?.any Char.isAlpha then
    ExportName.mangle libraryPrefix (Path.qualify c.entity.scopePath (String.ofList word))
  else String.ofList word

def exportValue (libraryPrefix : String) (c : Constant) : String :=
  " ".intercalate ((words c.value.toList).map (c.exportWord libraryPrefix))

def exportSignature (libraryPrefix : String) (c : Constant) : String :=
  "const int " ++ c.entity.exportName libraryPrefix ++ " = " ++ c.exportValue libraryPrefix

end Constant

end ApiModel
