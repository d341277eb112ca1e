import ApiModel.Toml.Scalar

/-!
Reading TOML documents. A document is a sequence of lines: each holds a header, a key with its
value, or nothing, and may end in a comment. Readers return what they read and the text behind it.
-/

namespace ApiModel.Toml

def isSpace (c : Char) : Bool := c = ' ' || c = '\t'

def dropSpaces (cs : List Char) : List Char := cs.dropWhile isSpace

def dropComment : List Char → List Char
  | '#' :: cs => cs.dropWhile isPlain
  | cs => cs

/-- What follows spaces, a comment and the end of the line, or of the text. -/
def dropRestOfLine? (cs : List Char) : Option (List Char) :=
  match dropComment (dropSpaces cs) with
  | [] => some []
  | '\n' :: cs => some cs
  | '\r' :: '\n' :: cs => some cs
  | _ => none

def dropLines (lines : Nat) (cs : List Char) : List Char :=
  match lines, dropComment (dropSpaces cs) with
  | lines + 1, '\n' :: cs => dropLines lines cs
  | lines + 1, '\r' :: '\n' :: cs => dropLines lines cs
  | _, cs => cs

def dropFiller (cs : List Char) : List Char := dropLines cs.length cs

def isKeyChar (c : Char) : Bool := c.isAlphanum || c = '_' || c = '-'

def simpleKey : List Char → Option (String × List Char)
  | '"' :: cs => (basicString cs).map fun (text, rest) => (String.ofList text, rest)
  | '\'' :: cs => (literalString cs).map fun (text, rest) => (String.ofList text, rest)
  | cs =>
    match cs.span isKeyChar with
    | ([], _) => none
    | (word, rest) => some (String.ofList word, rest)

/-- The parts of a key with at most `parts` dots, the last part apart. -/
def dottedKey : (parts : Nat) → List Char → Option ((List String × String) × List Char)
  | parts, cs => do
    let (key, rest) ← simpleKey (dropSpaces cs)
    match parts, dropSpaces rest with
    | parts + 1, '.' :: cs =>
      let ((path, last), rest) ← dottedKey parts cs
      return ((key :: path, last), rest)
    | 0, '.' :: _ => none
    | _, rest => return (([], key), rest)

def keyLimit : Nat := 78

def isWordChar (c : Char) : Bool := isKeyChar c || c = '+' || c = '.' || c = ':'

/-- A number, a date or a name. A space may stand between a date and a time. -/
def word (cs : List Char) : Option (Value × List Char) := do
  let (word, rest) := cs.span isWordChar
  match dropDate? word, rest with
  | some [], ' ' :: c :: rest =>
    if c.isDigit then
      let (time, rest) := (c :: rest).span isWordChar
      return (← scalar? (word ++ ' ' :: time), rest)
    else return (← scalar? word, ' ' :: c :: rest)
  | _, _ => return (← scalar? word, rest)

def string? : List Char → Option Reading
  | '"' :: '"' :: '"' :: cs => some (basicLines false (dropLineEnd cs))
  | '"' :: cs => some (basicString cs)
  | '\'' :: '\'' :: '\'' :: cs => some (literalLines (dropLineEnd cs))
  | '\'' :: cs => some (literalString cs)
  | _ => none

def nestingLimit : Nat := 79

mutual

/-- A value in which arrays and tables are nested at most `depth` deep. `fuel` bounds the length of
its arrays and tables. -/
def value (fuel : Nat) (depth : Nat) (cs : List Char) : Option (Value × List Char) :=
  match depth, cs with
  | depth + 1, '[' :: cs =>
    (arrayItems fuel depth (dropFiller cs)).map fun (items, rest) => (.array items, rest)
  | depth + 1, '{' :: cs =>
    match dropSpaces cs with
    | '}' :: rest => some (.table .braces [], rest)
    | cs =>
      (tableEntries fuel depth [] cs).map fun (entries, rest) => (.table .braces entries, rest)
  | 0, '[' :: _ => none
  | 0, '{' :: _ => none
  | _, cs =>
    match string? cs with
    | some reading => reading.map fun (text, rest) => (.text (String.ofList text), rest)
    | none => word cs
termination_by (depth, 0, 0)

def arrayItems (fuel depth : Nat) (cs : List Char) : Option (List Value × List Char) :=
  match fuel, cs with
  | _, ']' :: rest => some ([], rest)
  | 0, _ => none
  | fuel + 1, cs => do
    let (item, rest) ← value fuel depth cs
    match dropFiller rest with
    | ',' :: cs =>
      let (items, rest) ← arrayItems fuel depth (dropFiller cs)
      return (item :: items, rest)
    | ']' :: rest => return ([item], rest)
    | _ => none
termination_by (depth, 1, fuel)

def tableEntries (fuel depth : Nat) (before : Entries) (cs : List Char) :
    Option (Entries × List Char) :=
  match fuel with
  | 0 => none
  | fuel + 1 => do
    let ((path, key), rest) ← dottedKey keyLimit cs
    match rest with
    | '=' :: cs =>
      let (item, rest) ← value fuel depth (dropSpaces cs)
      let entries ← before.addKey path key item .header
      match dropSpaces rest with
      | ',' :: cs => tableEntries fuel depth entries cs
      | '}' :: rest => return (entries, rest)
      | _ => none
    | _ => none
termination_by (depth, 1, fuel)

end

/-- One line, without spaces in front. The state is the path of the current header and the document
so far. -/
def statement (state : List String × Entries) (cs : List Char) :
    Option ((List String × Entries) × List Char) := do
  let (header, document) := state
  match cs with
  | '[' :: '[' :: cs =>
    let ((path, key), rest) ← dottedKey keyLimit cs
    match rest with
    | ']' :: ']' :: rest => return ((path ++ [key], ← document.openElement path key), rest)
    | _ => none
  | '[' :: cs =>
    let ((path, key), rest) ← dottedKey keyLimit cs
    match rest with
    | ']' :: rest => return ((path ++ [key], ← document.openTable path key), rest)
    | _ => none
  | cs =>
    let ((path, key), rest) ← dottedKey keyLimit cs
    match rest with
    | '=' :: cs =>
      let (item, rest) ← value cs.length nestingLimit (dropSpaces cs)
      return ((header, ← document.addUnder header path key item), rest)
    | _ => none

def statements : (lines : Nat) → List String × Entries → List Char → Option Entries
  | lines, state, cs =>
    match lines, dropFiller cs with
    | _, [] => some state.2
    | 0, _ => none
    | lines + 1, cs => do
      let (state, rest) ← statement state cs
      statements lines state (← dropRestOfLine? rest)

/-- The document that a text writes; a byte order mark may stand in front. -/
def document? (text : List Char) : Option Entries :=
  let cs := match text with
    | '\ufeff' :: cs => cs
    | cs => cs
  statements cs.length ([], []) cs

end ApiModel.Toml
