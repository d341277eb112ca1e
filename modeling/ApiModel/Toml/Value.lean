/-!
The values of a TOML document, and how its statements build them up. A table may be opened once by a
header and may be extended by further headers and keys only in the way it came about.
-/

namespace ApiModel.Toml

/-- How a table came about. -/
inductive Origin where
  /-- By a header, or it is the document itself. -/
  | header
  /-- By the header of a table inside. -/
  | implied
  /-- By a dotted key. -/
  | dotted
  /-- Written out in braces; nothing can be added. -/
  | braces
  deriving DecidableEq, Repr

inductive Value where
  | text (text : String)
  | boolean (value : Bool)
  | integer (value : Int)
  /-- A number with a fraction or an exponent, as it is written. -/
  | float (text : String)
  /-- A date, a time, or both, as it is written. -/
  | moment (text : String)
  /-- Written out in brackets; nothing can be added. -/
  | array (items : List Value)
  | table (origin : Origin) (entries : List (String × Value))
  /-- The tables of one header in double brackets; the last is open. -/
  | tables (items : List (List (String × Value)))

/-- The entries of a table in the order of their keys' first appearance. -/
abbrev Entries := List (String × Value)

namespace Entries

def get? (entries : Entries) (key : String) : Option Value :=
  (entries.find? fun entry => entry.1 = key).map Prod.snd

def put (key : String) (value : Value) : Entries → Entries
  | [] => [(key, value)]
  | (k, v) :: entries => if k = key then (k, value) :: entries else (k, v) :: put key value entries

/-- Changes the table at a path. Missing tables on the way are made, by a dotted key or else by a
header. A dotted key must not enter a table that has a header of its own. -/
def change (dotted : Bool) (f : Origin → Entries → Option Entries) :
    List String → Origin → Entries → Option Entries
  | [], origin, entries => f origin entries
  | key :: path, _, entries => do
    match entries.get? key with
    | none =>
      let made : Origin := if dotted then .dotted else .implied
      return entries.put key (.table made (← change dotted f path made []))
    | some (.table origin inner) =>
      if origin = .braces || (dotted && origin = .header) then none
      else return entries.put key (.table origin (← change dotted f path origin inner))
    | some (.tables items) =>
      let last ← change dotted f path .header (← items.getLast?)
      return entries.put key (.tables (items.dropLast ++ [last]))
    | some _ => none

/-- Adds an entry under a new key. The dots in front of the key may extend tables of dotted keys
only. -/
def addKey (path : List String) (key : String) (value : Value) (origin : Origin)
    (entries : Entries) : Option Entries :=
  change true
    (fun origin entries =>
      if path.isEmpty = (origin = .dotted : Bool) then none
      else if (entries.get? key).isSome then none
      else some (entries.put key value))
    path origin entries

def addUnder (header path : List String) (key : String) (value : Value) (document : Entries) :
    Option Entries :=
  change false (fun origin entries => entries.addKey path key value origin) header .header document

def openTable (path : List String) (key : String) (document : Entries) : Option Entries :=
  change false
    (fun _ entries =>
      match entries.get? key with
      | none => some (entries.put key (.table .header []))
      | some (.table .implied inner) => some (entries.put key (.table .header inner))
      | some _ => none)
    path .header document

def openElement (path : List String) (key : String) (document : Entries) : Option Entries :=
  change false
    (fun _ entries =>
      match entries.get? key with
      | none => some (entries.put key (.tables [[]]))
      | some (.tables items) => some (entries.put key (.tables (items ++ [[]])))
      | some _ => none)
    path .header document

end Entries

end ApiModel.Toml
