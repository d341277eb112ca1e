import ApiModel.Text.Blank
import ApiModel.Text.Substitute

/-!
Export names: identifiers of the C side that are made from qualified, possibly templated names.
`std::vector<MStruct*>` becomes `std_vector_MStruct_ptr`, `Foo::operator[]` becomes
`Foo_operator_array`, each behind the prefix of the library.
-/

namespace ApiModel.ExportName

/-- The operator tokens and the words that stand for them. A token of two characters comes before
its first character. -/
def operatorWords : List (List Char × List Char) :=
  [("()", "_fct"), ("[]", "_array"), ("->", "_arrow"), ("!=", "_unequal"), ("==", "_equal"),
   ("<=", "_less_equal"), (">=", "_greater_equal"), ("<<", "_shift_left"), (">>", "_shift_right"),
   ("&&", "_logical_and"), ("||", "_logical_or"), ("&=", "_and_set"), ("|=", "_or_set"),
   ("^=", "_xor_set"), ("+=", "_add"), ("-=", "_sub"), ("*=", "_mult_set"), ("/=", "_div_set"),
   ("%=", "_mod_set"), ("++", "_increment"), ("--", "_decrement"), ("+", "_plus"),
   ("-", "_minus"), ("*", "_mult"), ("/", "_div"), ("%", "_mod"), ("!", "_not"), ("&", "_and"),
   ("|", "_or"), ("^", "_xor"), ("~", "_complement"), ("<", "_less"), (">", "_greater"),
   ("=", "_assign"), (",", "_comma")].map fun (token, word) => (token.toList, word.toList)

/-- The keyword of operator names. -/
def operatorKeyword : List Char := ['o', 'p', 'e', 'r', 'a', 't', 'o', 'r']

/-- The text before and behind the last `operator` in it. -/
def cutOperator : List Char → Option (List Char × List Char)
  | [] => none
  | c :: cs =>
    match cutOperator cs with
    | some (before, behind) => some (c :: before, behind)
    | none =>
      if operatorKeyword.isPrefixOf (c :: cs) then some ([], (c :: cs).drop 8) else none

/-- The text before and behind the keyword of an operator name: the last `operator`, where it begins
a part of the path and something else than an identifier character follows. -/
def operatorName? (name : List Char) : Option (List Char × List Char) :=
  (cutOperator name).filter fun (before, behind) =>
    (before = [] || [':', ':'].isSuffixOf before) && behind.head?.any fun c => !Text.isIdentChar c

/-- The identifier of a path without blanks: separators and brackets become underscores, a closing
bracket only where something follows it. -/
def manglePath : List Char → List Char
  | [] => []
  | ':' :: ':' :: cs => '_' :: manglePath cs
  | '>' :: cs => if cs = [] then [] else '_' :: manglePath cs
  | '*' :: cs => '_' :: 'p' :: 't' :: 'r' :: manglePath cs
  | '&' :: cs => '_' :: 'r' :: 'e' :: 'f' :: manglePath cs
  | c :: cs =>
    (if Text.isIdentChar c then c else '_') :: manglePath cs

/-- The words of an operator, after `skip` characters that an earlier token covers. -/
def mangleOperator : Nat → List Char → List Char
  | _, [] => []
  | skip + 1, _ :: cs => mangleOperator skip cs
  | 0, c :: cs =>
    match operatorWords.find? fun entry => entry.1.isPrefixOf (c :: cs) with
    | some (token, word) => word ++ mangleOperator (token.length - 1) cs
    | none => (if Text.isIdentChar c then c else '_') :: mangleOperator 0 cs

/-- The export name of a name without blanks, less the prefix of the library. -/
def mangleChars (name : List Char) : List Char :=
  match operatorName? name with
  | some (before, behind) => manglePath (before ++ operatorKeyword) ++ mangleOperator 0 behind
  | none => manglePath name

/-- The export name of a qualified name in the library with the prefix `libraryPrefix`. -/
def mangle (libraryPrefix name : String) : String :=
  libraryPrefix ++ String.ofList (mangleChars (Text.dropBlanks name.toList))

end ApiModel.ExportName
