import ApiModel.Name.Path
import ApiModel.Text.Blank

/-!
Names with template arguments: `Base<A,B>` and its parts. Arguments are separated by commas outside
nested brackets.
-/

namespace ApiModel.Template

/-- The pieces of a text between its commas outside brackets, the text beginning at that depth. -/
def cutArguments (depth : Int) : List Char → List (List Char)
  | [] => [[]]
  | c :: cs =>
    if c = ',' ∧ depth = 0 then [] :: cutArguments 0 cs
    else Path.consPart c (cutArguments (depth + Path.bracketStep c) cs)

/-- The arguments in a text between template brackets: trimmed, the blank ones left out. -/
def arguments (text : List Char) : List (List Char) :=
  ((cutArguments 0 text).map Text.trim).filter (· ≠ [])

/-- The text up to the bracket that closes the outermost open one, which has to be the last
character. `depth` counts the other open brackets. -/
def enclosed? (depth : Nat) : List Char → Option (List Char)
  | [] => none
  | '<' :: cs => (enclosed? (depth + 1) cs).map ('<' :: ·)
  | '>' :: cs =>
    match depth with
    | 0 => if cs = [] then some [] else none
    | depth + 1 => (enclosed? depth cs).map ('>' :: ·)
  | c :: cs => (enclosed? depth cs).map (c :: ·)

/-- `base<inner>` cut into `base`, which is not empty and has no bracket, and `inner`. -/
def cut? (name : List Char) : Option (List Char × List Char) :=
  match name.span (· ≠ '<') with
  | (c :: base, '<' :: rest) => (enclosed? 0 rest).map fun inner => (c :: base, inner)
  | _ => none

def split? (name : String) : Option (String × List String) :=
  (cut? name.toList).map fun (base, inner) =>
    (String.ofList base, (arguments inner).map String.ofList)

/-- The arguments in a text between template brackets. -/
def parseArguments (text : String) : List String :=
  (arguments text.toList).map String.ofList

end ApiModel.Template
