import ApiModel.Model.Traversal

/-!
A listing of a tree of scopes: for each type a line, and its members below it, indented by two more
spaces.
-/

namespace ApiModel.Model

def listingLine (level : Nat) (text : String) : String :=
  String.ofList (List.replicate (2 * level) ' ') ++ text ++ "\n"

/-- The line of a type: its kind and name, what it stands for, and its parents. -/
def headline (m : Model) (id : TypeId) : String :=
  let node := m.node id
  let target := match node.typedef with
    | some ty => " = " ++ m.signature ty
    | none => ""
  let bases := match m.parents id with
    | [] => ""
    | parents => " : " ++ ", ".intercalate (parents.map m.fullName)
  node.entityKind.word ++ " " ++ node.fullName ++ target ++ bases

/-- The line of an operation: how it is called, and the name on the C side. -/
def operationLine (m : Model) (op : Operation) : String :=
  op.signature m.fullName ++ " --> " ++ op.exportName m.libraryPrefix ++
    if op.ambiguous then " (ambiguous)" else ""

def valueLine (value : String × Option String) : String :=
  match value.2 with
  | some text => value.1 ++ " = " ++ text
  | none => value.1

def memberLines (m : Model) (id : TypeId) : List String :=
  let values := (((m.node id).values?.map OrderedMap.entries).getD []).map valueLine
  match m.scope? id with
  | none => values
  | some scope =>
    values ++ scope.constants.values.map (fun c => "const " ++ c.signature) ++
      scope.attributes.values.map (fun a => "attribute " ++ a.signature m.fullName) ++
      (m.operationTable id).toList.map m.operationLine

def block (m : Model) (level : Nat) (id : TypeId) : String :=
  listingLine level (m.headline id) ++
    String.join ((m.memberLines id).map (listingLine (level + 1)))

/-- The listing of a type and everything below it, down to the given number of levels. -/
def listingTo (m : Model) : (levels level : Nat) → TypeId → String
  | 0, _, _ => ""
  | levels + 1, level, id =>
    m.block level id ++ String.join ((m.ownedTypes id).map (listingTo m levels (level + 1)))

def listing (m : Model) (id : TypeId) : String := m.listingTo (m.size + 1) 0 id

end ApiModel.Model
