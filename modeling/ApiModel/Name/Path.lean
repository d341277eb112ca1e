/-!
Qualified names. The parts of a name are separated by `::`; a separator counts only outside template
brackets, so `std::map<a::K,int>` has the parts `std` and `map<a::K,int>`. The functions on lists of
characters do the work, those on strings are their public form.
-/

namespace ApiModel.Path

def bracketStep (c : Char) : Int :=
  if c = '<' then 1 else if c = '>' then -1 else 0

/-- The parts around the first separator of a text that begins at the given depth. -/
def cutFirst (depth : Int) : List Char → Option (List Char × List Char)
  | ':' :: ':' :: cs =>
    if depth = 0 then some ([], cs)
    else (cutFirst depth cs).map fun (head, tail) => (':' :: ':' :: head, tail)
  | c :: cs => (cutFirst (depth + bracketStep c) cs).map fun (head, tail) => (c :: head, tail)
  | [] => none

def cutLast (depth : Int) : List Char → Option (List Char × List Char)
  | ':' :: ':' :: cs =>
    match cutLast depth cs with
    | some (init, last) => some (':' :: ':' :: init, last)
    | none => if depth = 0 then some ([], cs) else none
  | c :: cs => (cutLast (depth + bracketStep c) cs).map fun (init, last) => (c :: init, last)
  | [] => none

/-- The parts around the first separator that follows an opening bracket; `opened` tells that one
was seen already. -/
def cutAfterBracket (depth : Int) (opened : Bool) : List Char → Option (List Char × List Char)
  | ':' :: ':' :: cs =>
    if depth = 0 && opened then some ([], cs)
    else (cutAfterBracket depth opened cs).map fun (head, tail) => (':' :: ':' :: head, tail)
  | c :: cs =>
    (cutAfterBracket (depth + bracketStep c) (opened || c = '<') cs).map
      fun (head, tail) => (c :: head, tail)
  | [] => none

def consPart (c : Char) : List (List Char) → List (List Char)
  | [] => [[c]]
  | part :: parts => (c :: part) :: parts

/-- All parts of a text that begins at the given depth; there is at least one. -/
def cutAll (depth : Int) : List Char → List (List Char)
  | ':' :: ':' :: cs =>
    if depth = 0 then [] :: cutAll 0 cs
    else consPart ':' (consPart ':' (cutAll depth cs))
  | c :: cs => consPart c (cutAll (depth + bracketStep c) cs)
  | [] => [[]]

private def strings (parts : List Char × List Char) : String × String :=
  (String.ofList parts.1, String.ofList parts.2)

def splitFirst? (name : String) : Option (String × String) :=
  (cutFirst 0 name.toList).map strings

/-- `a::T<A>::tail` split at the first separator behind a template's arguments. -/
def splitAfterTemplate? (name : String) : Option (String × String) :=
  (cutAfterBracket 0 false name.toList).map strings

def baseName (name : String) : String :=
  match cutLast 0 name.toList with
  | some (_, last) => String.ofList last
  | none => name

def parent (name : String) : String :=
  match cutLast 0 name.toList with
  | some (init, _) => String.ofList init
  | none => ""

def components (name : String) : List String :=
  (cutAll 0 name.toList).map String.ofList

/-- The name of a member of `scope`; the empty scope adds nothing. -/
def qualify (scope name : String) : String :=
  if scope = "" then name else scope ++ "::" ++ name

@[simp] theorem qualify_empty (name : String) : qualify "" name = name := by simp [qualify]

@[simp] theorem cutAll_ne_nil (depth : Int) (cs : List Char) : cutAll depth cs ≠ [] := by
  fun_induction cutAll depth cs with
  | case1 => simp
  | case2 depth cs h ih => cases hc : cutAll depth cs <;> simp_all [consPart]
  | case3 depth c cs h ih =>
    cases hc : cutAll (depth + bracketStep c) cs <;> simp_all [consPart]
  | case4 => simp

end ApiModel.Path
