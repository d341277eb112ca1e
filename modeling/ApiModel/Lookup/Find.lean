import ApiModel.Lookup.Plain
import ApiModel.Name.Template

/-!
Reading lookup. It sees what was declared and the specializations that were made before, and changes
nothing.
-/

namespace ApiModel

namespace TypeQuery

def isMarker (c : Char) : Bool := c = '*' || c = '&'

/-- A query split into the name and the pointer and reference markers behind it. -/
def split (query : String) : Except ModelError (String × List Char) :=
  let base := Text.dropEndWhile isMarker query.toList
  let markers := query.toList.drop base.length
  if markers.contains '*' && markers.contains '&' then
    .error (.invalidQualifierCombination query
      "a type cannot be a pointer and a reference at the same time")
  else .ok (String.ofList base, markers)

def applyMarkers (ty : TypeRef) (markers : List Char) : TypeRef :=
  markers.foldl (fun ty c => if c = '*' then .pointer ty else .reference ty) ty

end TypeQuery

namespace Model

/-- The template under a name. -/
def findTemplate (m : Model) (scope : TypeId) (name : String) (search : Search) : Option TypeId :=
  match m.findPlain scope (Name.normalizeQuery name) search true with
  | some (.raw id) => if (m.node id).isTemplate then some id else none
  | _ => none

def specializationScope (m : Model) (template : TypeId) : TypeId :=
  (m.owner? template).getD .root

def specializationName (m : Model) (template : TypeId) (arguments : List TypeRef) : String :=
  (m.node template).name ++ "<" ++ ",".intercalate (arguments.map m.signature) ++ ">"

/-- The specialization that was made before with the same arguments. -/
def madeSpecialization? (m : Model) (template : TypeId) (arguments : List TypeRef) :
    Option TypeId :=
  m.type? (m.specializationScope template) (m.specializationName template arguments)

/-- The type of a query in which brackets are nested less than `bound` deep. -/
def findTypeBelow (m : Model) (search : Search) (scope : TypeId) :
    (bound : Nat) → String → Option TypeRef
  | 0, _ => none
  | bound + 1, query =>
    match TypeQuery.split (Name.normalizeQuery query) with
    | .error _ => none
    | .ok (name, markers) =>
      let made : Option TypeRef := do
        let (base, arguments) ← Template.split? name
        let template ← m.findTemplate scope base search
        let arguments ← arguments.mapM (findTypeBelow m search scope bound)
        let id ← m.madeSpecialization? template arguments
        return .raw id
      ((m.findPlain scope name search true).or made).map (TypeQuery.applyMarkers · markers)

/-- The type of a query, if it was declared or made before. -/
def findType (m : Model) (scope : TypeId) (query : String) (search : Search) : Option TypeRef :=
  m.findTypeBelow search scope ((Name.normalizeQuery query).length + 1) query

inductive Found where
  | type (type : TypeRef)
  | operations (operations : List Operation)
  | constant (constant : Constant)

/-- The member under a name: a type, else operations, else a constant. -/
def member? (m : Model) (scope : TypeId) (name : String) : Option Found :=
  match m.findType scope name .owners, m.findOperations scope name with
  | some ty, _ => some (.type ty)
  | none, [] => (m.findConstant scope name .owners).map .constant
  | none, ops => some (.operations ops)

end Model

end ApiModel
