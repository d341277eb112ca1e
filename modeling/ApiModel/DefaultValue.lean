import ApiModel.Text.Alphanumeric
import ApiModel.Text.Blank

/-!
Texts of default values: numeric literals, freed of the suffixes that only C knows, and calls such
as `Size(1, 2)`.
-/

namespace ApiModel.DefaultValue

def isNumeric : List Char → Bool
  | '-' :: cs => cs.head?.any Char.isDigit
  | cs => cs.head?.any Char.isDigit

/-- A literal of type `double`: a point at the end is followed by a zero. -/
def cleanDouble (cs : List Char) : List Char :=
  if isNumeric cs && cs.getLast? = some '.' then cs ++ ['0'] else cs

/-- A literal of type `float`: without the suffix `f`. -/
def cleanFloat (cs : List Char) : List Char :=
  if isNumeric cs then cleanDouble (Text.dropEndWhile (fun c => c = 'f' || c = 'F') cs) else cs

def isHexadecimal : List Char → Bool
  | '0' :: 'x' :: _ => true
  | '0' :: 'X' :: _ => true
  | _ => false

/-- A literal of any other type: without the suffixes `u` and `l`. -/
def cleanInteger (cs : List Char) : List Char :=
  if isNumeric cs && !isHexadecimal cs then
    Text.dropEndWhile (fun c => c = 'u' || c = 'U' || c = 'l' || c = 'L') cs
  else cs

def clean (typeName text : String) : String :=
  let cs := text.toList
  String.ofList <|
    if typeName = "float" then cleanFloat cs
    else if typeName = "double" then cleanDouble cs
    else cleanInteger cs

def isPathChar (c : Char) : Bool := Text.isIdentChar c || c = ':' || c = '.'

/-- `callee(arguments)` split into the path that is called and its arguments. -/
def splitCall? (text : String) : Option (String × String) :=
  match text.toList.span (· ≠ '(') with
  | (before, '(' :: rest) =>
    let callee := Text.trim before
    if rest.getLast? = some ')' && callee ≠ [] && callee.all isPathChar then
      some (String.ofList callee, String.ofList rest.dropLast)
    else none
  | _ => none

end ApiModel.DefaultValue
