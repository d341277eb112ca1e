import ApiModel.Lookup.Resolve

/-!
The types of the standard library that models come with: the templates `std::vector` and `std::map`,
and the class `std::string`.
-/

namespace ApiModel.StdTypes

def parameter (name : String) (type : TypeRef) : Parameter := { entity := { name }, type }

def inOutParameter (name : String) (type : TypeRef) : Parameter :=
  { entity := ({ name, flags := [.inOut] } : Entity).touch, type }

def method (name : String) (result : TypeRef) (parameters : List Parameter := []) : Operation :=
  { entity := { name }, returnType := some result, parameters }

def constructor (className : String) (parameters : List Parameter := []) : Operation :=
  { entity := { name := className }, parameters }

def otherObject (id : TypeId) : Parameter :=
  parameter "other" (TypeRef.toConst (.reference (.raw id)))

def constructors (className : String) (id : TypeId) : List Operation :=
  [constructor className, constructor className [otherObject id]]

def swap (id : TypeId) (void : TypeRef) : Operation :=
  method "swap" void [inOutParameter "other" (.reference (.raw id))]

/-- The methods of a vector; `valueText` is the written form of `value`. -/
def vectorMethods (id : TypeId) (value sizeType void bool : TypeRef) (valueText : String) :
    List Operation :=
  let size := parameter "size" sizeType
  [method "resize" void [size, (parameter "val" value).setDefault (valueText ++ "()")],
   method "size" sizeType,
   method "capacity" sizeType,
   method "empty" bool,
   method "reserve" void [size],
   method "operator[]" value [size],
   method "at" value [size],
   method "front" value,
   method "back" value,
   method "data" (.pointer void),
   method "push_back" void [parameter "other" value],
   method "pop_back" void,
   swap id void]

def fillVector (id : TypeId) : List TypeRef → Script
  | [value] =>
    .builtin "size_t" fun sizeType =>
    .builtin "void" fun void =>
    .builtin "bool" fun bool =>
    .signatureOf value fun valueText =>
    .nameOf id fun className =>
    .addOperations id (constructors className id ++
      vectorMethods id value sizeType void bool valueText) .finish
  | arguments =>
    .fail (.templateArguments "std::vector"
      ("takes exactly one argument, got " ++ toString arguments.length))

def vector : Specializer := ⟨"std::vector", fillVector⟩

def mapMethods (key value sizeType void bool keys : TypeRef) : List Operation :=
  let keyParameter := parameter "key_type" key
  [method "size" sizeType,
   method "clear" void,
   method "empty" bool,
   method "operator[]" value [keyParameter],
   method "at" value [keyParameter],
   method "erase" void [keyParameter],
   method "getKeys" keys]

/-- Fills `std::map<K,V,…>`; further arguments play no role. -/
def fillMap (id : TypeId) : List TypeRef → Script
  | key :: value :: _ =>
    .builtin "size_t" fun sizeType =>
    .builtin "void" fun void =>
    .builtin "bool" fun bool =>
    .signatureOf key fun keyText =>
    .builtin ("std::vector<" ++ keyText ++ ">") fun keys =>
    .nameOf id fun className =>
    .addOperations id (constructors className id ++
      mapMethods key value sizeType void bool keys) .finish
  | arguments =>
    .fail (.templateArguments "std::map"
      ("takes at least two arguments, got " ++ toString arguments.length))

def map : Specializer := ⟨"std::map", fillMap⟩

def stringOperations (id : TypeId) (sizeType char cString constCString bool void int : TypeRef) :
    List Operation :=
  constructors "string" id ++
    [constructor "string" [parameter "str" cString, parameter "size" sizeType],
     method "size" sizeType,
     method "length" sizeType,
     method "operator[]" char [parameter "idx" sizeType],
     method "c_str" constCString,
     method "empty" bool,
     method "clear" void,
     method "compare" int [otherObject id],
     swap id void]

def declare : ModelM Unit := do
  let std ← Model.addNamespace .root "std"
  let _ ← Model.addTemplate std "vector" vector
  let _ ← Model.addTemplate std "map" map
  let string ← Model.addType std
    { entity := { name := "string" }, kind := .container .classType {} }
  let builtin (name : String) : ModelM TypeRef := Model.lookupType .root name .local
  let sizeType ← builtin "size_t"
  let char ← builtin "char"
  let cString ← builtin "c_string"
  let constCString ← builtin "const_c_string"
  let bool ← builtin "bool"
  let void ← builtin "void"
  let int ← builtin "int"
  (stringOperations string sizeType char cString constCString bool void int).forM fun op => do
    let _ ← Model.addOperation string op

end ApiModel.StdTypes
