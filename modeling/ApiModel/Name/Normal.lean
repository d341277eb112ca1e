import ApiModel.Error
import ApiModel.Text.Blank
import ApiModel.Text.Substitute

/-!
Normal forms of the names that users write: of a declared name, and of a type in a query. Both have
no blanks and separate their parts by `::`, for which users may also write a dot.
-/

namespace ApiModel.Name

def dotsToSeparators (cs : List Char) : List Char :=
  cs.flatMap fun c => if c = '.' then [':', ':'] else [c]

/-- Something follows the first line break that is not at the end of the text. -/
def hasSecondLine : List Char → Bool
  | [] => false
  | c :: cs => (c = '\n' && !cs.isEmpty) || hasSecondLine cs

/-- The normal form of a declared name: dots as separators, and no blanks. -/
def normalize (name : String) : Except ModelError String :=
  if hasSecondLine name.toList then
    .error (.invalidName name "names must fit on a single line")
  else
    match Text.dropBlanks (dotsToSeparators (Text.trim name.toList)) with
    | [] => .error (.invalidName name "no name")
    | cs => .ok (String.ofList cs)

def normalizeQueryChars (cs : List Char) : List Char :=
  let unqualified := Text.removeConst (Text.trim cs)
  let spelled := Text.replaceAll "unsigned ".toList ['u'] unqualified
  Text.dropBlanks (dotsToSeparators spelled)

/-- The normal form of a type query: the keyword `const` is dropped, `unsigned x` is spelled `ux`,
dots are separators, and there are no blanks. -/
def normalizeQuery (query : String) : String := String.ofList (normalizeQueryChars query.toList)

end ApiModel.Name
