import ApiModel.Proofs.Arguments
import ApiModel.Proofs.Callees
import ApiModel.Proofs.Concrete

/-!
The vector that the operation `getKeys` of a map returns. The script that fills a map writes the key
down and looks the vector of it up, so what the query loses, the vector does not have: a class that
is made then is a vector of the key without const. And a class that is found under the name is taken
as it is.
-/

namespace ApiModel

namespace Script

variable {lookup : TypeId → String → Search → ModelM TypeRef} {m m' : Model} {name : String}
  {next : TypeRef → Script} {ty : TypeRef}

theorem run_builtin (h : lookup .root name .local m = .ok ty m') :
    run lookup (builtin name next) m = run lookup (next ty) m' := by
  rw [builtin, run, h]
  rfl

theorem run_builtin_eq_ok {found : Option TypeRef}
    (h : run lookup (builtin name next) m = (.ok found, m')) :
    ∃ ty m₁, lookup .root name .local m = .ok ty m₁ ∧
      run lookup (next ty) m₁ = (.ok found, m') := by
  rw [builtin, run] at h
  split at h
  · next ty m₁ hl => exact ⟨ty, m₁, hl, h⟩
  · cases h

end Script

namespace Model

variable {p : Policy} {m m' : Model} {id std vector map template : TypeId} {op : Operation}
  {ops : List Operation} {name : String} {depth : Nat} {run : ScriptRunner}
  {specializer : Specializer} {arguments rest : List TypeRef} {key value keys : TypeRef}

def withOperations (m : Model) (id : TypeId) (ops : List Operation) : Model :=
  ops.foldl (fun m op => m.withOperation id op) m

theorem isContainer_withOperation (m : Model) (id : TypeId) (op : Operation) (j : TypeId) :
    ((m.withOperation id op).node j).isContainer = (m.node j).isContainer :=
  (sameKind_modifyScope _ _ _).isContainer

theorem run_addOperations {lookup : TypeId → String → Search → ModelM TypeRef} {next : Script}
    (hc : (m.node id).isContainer = true) (ho : ∀ op ∈ ops, op.entity.scopePath = "") :
    Script.run lookup (Script.addOperations id ops next) m =
      Script.run lookup next (m.withOperations id ops) := by
  induction ops generalizing m with
  | nil => rfl
  | cons op ops ih =>
    obtain ⟨hop, hops⟩ := List.forall_mem_cons.mp ho
    obtain ⟨stored, hok⟩ := addOperation_direct hc hop
    rw [Script.addOperations, Script.run, hok]
    exact ih (by rwa [isContainer_withOperation]) hops

theorem adds_withOperations (m : Model) (id : TypeId) (ops : List Operation) :
    Adds (some id) m (m.withOperations id ops) := by
  induction ops generalizing m with
  | nil => exact .refl _ m
  | cons op ops ih => exact (Adds.withOperation m id op).trans (ih _) fun _ _ h => h

theorem AddsNamed.withOperations (h : m.AddsNamed m' name) (id : TypeId) (ops : List Operation) :
    m.AddsNamed (m'.withOperations id ops) name := by
  induction ops generalizing m' with
  | nil => exact h
  | cons op ops ih => exact ih (h.withOperation id op)

theorem overloads_withOperation {a : Scope} (ha : m.scope? id = some a) (op : Operation)
    (name : String) : ∃ stored, (m.ownedOperation id op).SameDeclaration stored ∧
      ((m.withOperation id op).members id).operations.overloads name =
        if op.name = name then a.operations.overloads name ++ [stored]
        else a.operations.overloads name := by
  have hsame := a.operations.sameDeclaration_stored m.libraryPrefix (m.ownedOperation id op)
  have hname : (a.operations.stored m.libraryPrefix (m.ownedOperation id op)).name = op.name :=
    hsame.name
  refine ⟨_, hsame, ?_⟩
  rw [members, withOperation, scope?_modifyScope_self, ha, Option.map_some, Option.getD_some,
    OperationTable.insert, OperationTable.overloads_push, hname]

/-- Of the operations that are added, the last one is the only one of its name. -/
theorem overloads_withOperations (hc : (m.node id).isContainer = true)
    (hempty : (m.members id).operations.overloads op.name = [])
    (hname : ∀ before ∈ ops, before.name ≠ op.name) :
    ∃ stored, stored.returnType = op.returnType ∧
      ((m.withOperations id (ops ++ [op])).members id).operations.overloads op.name =
        [stored] := by
  induction ops generalizing m with
  | nil =>
    obtain ⟨a, ha⟩ := isContainer_iff.mp hc
    obtain ⟨stored, hsame, hoverloads⟩ := overloads_withOperation ha op op.name
    rw [members_of_scope ha] at hempty
    rw [if_pos rfl, hempty, List.nil_append] at hoverloads
    exact ⟨stored, hsame.returnType, hoverloads⟩
  | cons before ops ih =>
    obtain ⟨hbefore, hops⟩ := List.forall_mem_cons.mp hname
    refine ih (by rwa [isContainer_withOperation]) ?_ hops
    obtain ⟨a, ha⟩ := isContainer_iff.mp hc
    obtain ⟨stored, -, hoverloads⟩ := overloads_withOperation ha before op.name
    rw [hoverloads, if_neg hbefore, ← members_of_scope ha, hempty]

section

variable {scope : TypeId} {query : String} {search : Search} {markers : List Char} {found : TypeRef}
  {bound : Nat}

theorem lookupTypeBelow_of_found (hq : Name.normalizeQuery query ≠ "")
    (hsplit : TypeQuery.split (Name.normalizeQuery query) = .ok (name, markers))
    (hfound : m.findPlain scope name search true = some found)
    (husable : (found.isRaw && (m.node found.base).isTemplate) = false) :
    lookupTypeBelow run (bound + 1) scope query search m =
      .ok (TypeQuery.applyMarkers found markers) m := by
  have hresolve : ∀ lookupArgument, resolveBelow run lookupArgument scope search (name.length + 1)
      name m = .ok (some found) m := fun lookupArgument => by
    rw [resolveBelow, ModelM.bind_apply, ModelM.get_apply]
    simp only [hfound, ModelM.pure_apply]
  rw [lookupTypeBelow_succ _ hq hsplit, ModelM.bind_apply, hresolve]
  exact concludeLookup_eq_ok husable _

end

theorem lookupTypeTo_of_type? (hw : Name.IsWord name) (hl : m.type? .root name = some id)
    (ht : (m.node id).isTemplate = false) :
    lookupTypeTo depth .root name .local m = .ok (.raw id) m := by
  have hplain := hw.isPlainQuery
  have hsplit : TypeQuery.split (Name.normalizeQuery name) = .ok (name, []) := by
    rw [hplain.normalizeQuery_eq]
    simpa using hw.isPart.toIsPath.split (List.forall_mem_nil _) (.inl List.not_mem_nil)
  rw [lookupTypeTo_eq, lookupTypeWith]
  refine lookupTypeBelow_of_found ?_ hsplit ?_ ?_
  · rw [hplain.normalizeQuery_eq]
    exact hplain.ne_empty
  · exact findBelow_of_inside (findInside_of_binding (binding?_of_type? hl))
  · simp [TypeRef.base, ht]

/-- The templates of the standard library are registered, and so are the types that their classes
use. -/
structure HasStdTypes (m : Model) (std vector map : TypeId) : Prop where
  stdListed : m.type? .root "std" = some std
  vectorListed : m.type? std "vector" = some vector
  mapListed : m.type? std "map" = some map
  fillsVector : (m.node vector).specializer? = some StdTypes.vector
  fillsMap : (m.node map).specializer? = some StdTypes.map
  basic : ∀ name ∈ ["size_t", "void", "bool"], ∃ id, m.type? .root name = some id ∧
    (m.node id).isTemplate = false

namespace HasStdTypes

variable (h : m.HasStdTypes std vector map)
include h

theorem lookup_basic (name : String) (hname : name ∈ ["size_t", "void", "bool"]) (depth : Nat) :
    ∃ id, lookupTypeTo depth .root name .local m = .ok (.raw id) m := by
  obtain ⟨id, hl, ht⟩ := h.basic name hname
  have hwords : ∀ name ∈ ["size_t", "void", "bool"], Name.IsWord name := by decide +kernel
  exact ⟨id, lookupTypeTo_of_type? (hwords name hname) hl ht⟩

theorem specializationScope_vector (ht : m.IsTree) : m.specializationScope vector = std := by
  rw [specializationScope, (ht.listed h.vectorListed).2]
  rfl

theorem specializationScope_map (ht : m.IsTree) : m.specializationScope map = std := by
  rw [specializationScope, (ht.listed h.mapListed).2]
  rfl

theorem isContainer_std : (m.node std).isContainer = true := isContainer_of_type? h.vectorListed

theorem specializationName_vector (ht : m.IsTree) (value : TypeRef) :
    m.specializationName vector [value] = "vector<" ++ m.signature value ++ ">" := by
  rw [specializationName, (ht.listed h.vectorListed).1]
  simp

theorem findTemplate_vector (hm : m.NamesUndivided) :
    m.findTemplate .root "std::vector" .local = some vector := by
  have hword : Name.IsWord "std" := by decide +kernel
  have hvector : Name.IsWord "vector" := by decide +kernel
  have hparts : ∀ part ∈ ["std", "vector"], Path.IsPart part := by
    simp [hword.isPart, hvector.isPart]
  have hquery : Name.normalizeQuery "std::vector" = "::".intercalate ["std", "vector"] :=
    (hword.isPlainQuery.join hvector.isPlainQuery).normalizeQuery_eq
  have hd : m.descend? .root ["std", "vector"] = some vector := by
    simp [descend?, h.stdListed, h.vectorListed]
  rw [findTemplate, hquery, findPlain_of_descend? hm hparts (by simp) hd]
  simp [isTemplate_of_specializer h.fillsVector]

theorem withNewClass {made : Specialization} (ht : (m.node made.template).isTemplate = true)
    (hc : (m.node (m.specializationScope made.template)).isContainer = true)
    (hfree : m.madeSpecialization? made.template made.arguments = none) :
    (m.withNewClass made).HasStdTypes std vector map := by
  have hadds : Adds none m (m.withNewClass made) := .withNewClass ht hc hfree
  have hkeeps : KeepsTypes m (m.withNewClass made) :=
    .linked_next hc (TypeNode.isSimple_specialized _ _).toIsBlank hfree
  have hfills : ∀ {id specializer}, (m.node id).specializer? = some specializer →
      ((m.withNewClass made).node id).specializer? = some specializer := fun hs =>
    (hadds.specializer?_eq (knows_of_isTemplate (isTemplate_of_specializer hs))).trans hs
  refine ⟨hkeeps.listed h.stdListed, hkeeps.listed h.vectorListed, hkeeps.listed h.mapListed,
    hfills h.fillsVector, hfills h.fillsMap, fun name hname => ?_⟩
  obtain ⟨id, hl, htemplate⟩ := h.basic name hname
  refine ⟨id, hkeeps.listed hl, ?_⟩
  by_cases hk : m.Knows id
  · rw [hadds.isTemplate_eq hk, htemplate]
  · exact hadds.untemplated id hk

end HasStdTypes

theorem made_of_makeSpecialization
    (hc : (m.node (m.specializationScope template)).isContainer = true)
    (hfree : m.madeSpecialization? template arguments = none)
    (hok : makeSpecialization run template specializer arguments m = .ok id m') :
    id = m.next ∧ ∃ found, run (specializer.fill m.next arguments)
      (m.withNewClass ⟨template, arguments⟩) = (.ok found, m') := by
  rw [makeSpecialization_eq hc hfree] at hok
  split at hok
  · next found finish hran =>
    cases hok
    exact ⟨rfl, found, hran⟩
  · obtain ⟨_, _, -, hthrow⟩ := ModelM.bind_eq_ok hok
    cases hthrow

theorem NamesUndivided.withNewClass {made : Specialization} (h : m.NamesUndivided)
    (hc : (m.node (m.specializationScope made.template)).isContainer = true)
    (hname : Path.splitFirst? (m.specializationName made.template made.arguments) = none) :
    (m.withNewClass made).NamesUndivided := by
  intro s name hkey
  have hblank := (TypeNode.isSimple_specialized
    (m.specializationName made.template made.arguments) made).toIsBlank
  by_cases hs : s = m.specializationScope made.template
  · rw [Model.withNewClass, hs, members_linked_next hc hblank, Scope.isKey_iff] at hkey
    obtain ⟨ty, hty⟩ := hkey
    rw [Scope.binding?_enterType] at hty
    split at hty
    · next he => rwa [he]
    · rw [if_neg (fun halias => by cases halias)] at hty
      exact h _ name (Scope.isKey_iff.mpr ⟨ty, hty⟩)
  · rw [Model.withNewClass, members_linked_next_of_ne hc hblank hs] at hkey
    exact h s name hkey

/-- A vector is filled by operations only. -/
theorem vector_of_makeSpecialization (ht : m.IsTree) (hstd : m.HasStdTypes std vector map)
    (hfree : m.madeSpecialization? vector [value] = none)
    (hok : makeSpecialization (scriptsTo depth) vector StdTypes.vector [value] m = .ok id m') :
    id = m.next ∧ (m'.node id).specialization = some ⟨vector, [value]⟩ ∧ Adds none m m' ∧
      m.AddsNamed m' (m.specializationName vector [value]) := by
  have hc : (m.node (m.specializationScope vector)).isContainer = true := by
    rw [hstd.specializationScope_vector ht]
    exact hstd.isContainer_std
  have htemplate := isTemplate_of_specializer hstd.fillsVector
  obtain ⟨rfl, found, hran⟩ := made_of_makeSpecialization hc hfree hok
  cases depth with
  | zero => cases hran
  | succ depth =>
    let m₁ := m.withNewClass ⟨vector, [value]⟩
    have hstd₁ : m₁.HasStdTypes std vector map := hstd.withNewClass htemplate hc hfree
    have hnode : m₁.node m.next = m.newClass ⟨vector, [value]⟩ := node_withNewClass_next hc
    obtain ⟨sizeType, hsize⟩ := hstd₁.lookup_basic "size_t" (by decide) depth
    obtain ⟨void, hvoid⟩ := hstd₁.lookup_basic "void" (by decide) depth
    obtain ⟨bool, hbool⟩ := hstd₁.lookup_basic "bool" (by decide) depth
    let ops := StdTypes.constructors (m₁.node m.next).name m.next ++
      StdTypes.vectorMethods m.next value (.raw sizeType) (.raw void) (.raw bool)
        (m₁.signature value)
    have hpaths : ∀ op ∈ ops, op.entity.scopePath = "" := by
      simp [ops, StdTypes.constructors, StdTypes.constructor, StdTypes.vectorMethods,
        StdTypes.method, StdTypes.swap]
    have hcontainer : (m₁.node m.next).isContainer = true := by rw [hnode]; rfl
    have hfill : scriptsTo (depth + 1) (StdTypes.vector.fill m.next [value]) m₁ =
        (.ok none, m₁.withOperations m.next ops) := by
      refine (Script.run_builtin hsize).trans ?_
      refine (Script.run_builtin hvoid).trans ?_
      refine (Script.run_builtin hbool).trans ?_
      exact run_addOperations hcontainer hpaths
    obtain ⟨-, rfl⟩ := Prod.mk.inj (hfill.symm.trans hran)
    have hops : Adds (some m.next) m₁ (m₁.withOperations m.next ops) := adds_withOperations ..
    have hnew : Adds none m m₁ := .withNewClass htemplate hc hfree
    have hnamed : m.AddsNamed m₁ (m.specializationName vector [value]) := .withNewClass hc
    refine ⟨rfl, ?_, hnew.trans hops fun id hk he => ?_, hnamed.withOperations m.next ops⟩
    · exact hops.specialization_eq_some (by rw [hnode]; rfl)
    · obtain rfl := Option.some.inj he
      exact absurd hk not_knows_next

/-- The query by which the script of a map looks up the vector of the key. -/
def vectorQuery (m : Model) (key : TypeRef) : String := "std::vector<" ++ m.signature key ++ ">"

/-- The full name leads from the root to the type, and queries keep it, also when it is the argument
of a template. -/
structure Quotable (m : Model) (id : TypeId) : Prop where
  plain : Name.IsPlainQuery (m.fullName id)
  argument : Template.IsArgument (m.fullName id).toList
  reached : ∃ parts ≠ [], (∀ part ∈ parts, Path.IsPart part) ∧
    m.fullName id = "::".intercalate parts ∧ m.descend? .root parts = some id
  untemplated : (m.node id).isTemplate = false

theorem Attached.quotable {names : List String} (ha : m.Attached id names) (ht : m.IsTree)
    (h : m.Coherent) (hr : id ≠ .root) (hm : m.NamesUndivided)
    (hnames : ∀ name ∈ names, Name.IsTypePart name)
    (hargument : Template.IsArgument (m.fullName id).toList)
    (htemplate : (m.node id).isTemplate = false) : m.Quotable id := by
  have hparts := ha.isPart_of_isTypePart ht hm hnames
  have hne : ∀ name ∈ names, name ≠ "" := fun name hname => (hparts name hname).ne_empty
  exact ⟨ha.isPlainQuery ht h hr fun name hname => (hnames name hname).isPlainQuery, hargument,
    ⟨names, ha.ne_nil hr, hparts, ha.fullName_eq ht h hr hne, ha.descend?_eq ht hne⟩, htemplate⟩

namespace Quotable

theorem toList_signature (m : Model) (key : TypeRef) :
    (m.signature key.withoutConst).toList = (m.fullName key.base).toList ++ key.markers := by
  rw [signature, TypeRef.render_withoutConst, String.toList_append, String.toList_ofList]

theorem path (h : m.Quotable id) : Path.IsPath (m.fullName id) := by
  obtain ⟨parts, hne, hparts, hname, -⟩ := h.reached
  rw [hname]
  exact .intercalate hne fun part hpart => (hparts part hpart).toIsPath

theorem found (h : m.Quotable id) (hm : m.NamesUndivided) :
    m.findPlain .root (m.fullName id) .local true = some (.raw id) := by
  obtain ⟨parts, hne, hparts, hname, hd⟩ := h.reached
  rw [hname]
  exact findPlain_of_descend? hm hparts hne hd

theorem knows (h : m.Quotable id) : m.Knows id := by
  by_contra hk
  refine h.plain.ne_empty ?_
  rw [fullName, node_of_not_knows hk]
  rfl

theorem fullName_withNewClass {made : Specialization} (h : m.Quotable id)
    (hc : (m.node (m.specializationScope made.template)).isContainer = true)
    (hfree : m.madeSpecialization? made.template made.arguments = none) :
    (m.withNewClass made).fullName id = m.fullName id := by
  have hkeeps : KeepsTypes m (m.withNewClass made) :=
    .linked_next hc (TypeNode.isSimple_specialized _ _).toIsBlank hfree
  exact (hkeeps.identity id h.knows).fullName

theorem withNewClass {made : Specialization} (h : m.Quotable id)
    (ht : (m.node made.template).isTemplate = true)
    (hc : (m.node (m.specializationScope made.template)).isContainer = true)
    (hfree : m.madeSpecialization? made.template made.arguments = none) :
    (m.withNewClass made).Quotable id := by
  have hkeeps : KeepsTypes m (m.withNewClass made) :=
    .linked_next hc (TypeNode.isSimple_specialized _ _).toIsBlank hfree
  have hadds : Adds none m (m.withNewClass made) := .withNewClass ht hc hfree
  have hname := h.fullName_withNewClass hc hfree
  obtain ⟨parts, hne, hparts, hpath, hd⟩ := h.reached
  refine ⟨?_, ?_, ⟨parts, hne, hparts, ?_, hkeeps.descend?_eq hd⟩, ?_⟩
  · rw [hname]
    exact h.plain
  · rw [hname]
    exact h.argument
  · rw [hname, hpath]
  · rw [hadds.isTemplate_eq h.knows, h.untemplated]

variable (h : m.Quotable key.base)
include h

theorem isArgument : Template.IsArgument (m.signature key.withoutConst).toList := by
  rw [toList_signature]
  exact h.argument.append_markers TypeRef.isMarker_of_mem_markers

theorem spells (hlayers : key.Unstacked) :
    Spells (m.fullName key.base).toList key.markers (m.signature key).toList :=
  .render h.plain hlayers

theorem spells_withoutConst :
    Spells (m.fullName key.base).toList key.markers (m.signature key.withoutConst).toList := by
  have hspells := spells (m := m) (by rwa [TypeRef.base_withoutConst])
    key.unstacked_withoutConst
  rwa [TypeRef.base_withoutConst, TypeRef.markers_withoutConst] at hspells

theorem trim_signature :
    Text.trim (m.signature key.withoutConst).toList = (m.signature key.withoutConst).toList :=
  Text.trim_eq_self_of_ends h.spells_withoutConst.first h.spells_withoutConst.last

/-- The query for the vector loses the consts of the key, and nothing else. -/
theorem normalizeQuery_vectorQuery (hlayers : key.Unstacked) :
    Name.normalizeQuery (m.vectorQuery key) = m.vectorQuery key.withoutConst := by
  have hstd : Name.IsWord "std" := by decide +kernel
  have hvector : Name.IsWord "vector" := by decide +kernel
  have hspells := Spells.enclosed (hstd.isPlainQuery.join hvector.isPlainQuery) (h.spells hlayers)
  have htext : (m.vectorQuery key).toList =
      ("std" ++ "::" ++ "vector").toList ++ '<' :: ((m.signature key).toList ++ ['>']) := by
    simp [vectorQuery, String.toList_append]
  rw [← htext] at hspells
  rw [Name.normalizeQuery, hspells.normalizeQueryChars_eq, ← String.toList_inj, vectorQuery]
  simp [String.toList_append, toList_signature]

theorem isPath_specialization (base : String)
    (hbase : base.toList.count '<' = base.toList.count '>') :
    Path.IsPath (base ++ "<" ++ m.signature key.withoutConst ++ ">") := by
  have htext : (base ++ "<" ++ m.signature key.withoutConst ++ ">").toList =
      base.toList ++ '<' :: ((m.fullName key.base).toList ++ key.markers) ++ ['>'] := by
    simp [String.toList_append, toList_signature]
  have hbrackets : ∀ c ∈ ['<', '>'], key.markers.count c = 0 := fun c hc =>
    List.count_eq_zero.mpr fun hmem => by
      have hmarker := TypeRef.isMarker_of_mem_markers _ hmem
      obtain rfl | rfl : c = '<' ∨ c = '>' := by simpa using hc
      all_goals exact absurd hmarker (by decide)
  refine ⟨by simp, ?_, fun c hc => ?_⟩
  · rw [htext]
    simp [h.path.balanced, hbrackets, hbase]
  · rw [htext, List.getLast?_concat] at hc
    obtain rfl := Option.some.inj hc
    decide

theorem isPath_vectorQuery : Path.IsPath (m.vectorQuery key.withoutConst) := by
  have hpath := h.isPath_specialization "std::vector" (by decide +kernel)
  rwa [vectorQuery, show "std::vector<" = "std::vector" ++ "<" by decide +kernel]

theorem split?_vectorQuery : Template.split? (m.vectorQuery key.withoutConst) =
    some ("std::vector", [m.signature key.withoutConst]) := by
  rw [vectorQuery, show "std::vector<" = "std::vector" ++ "<" by decide +kernel]
  exact Template.split?_eq (by decide) (by decide +kernel) h.isArgument h.trim_signature

theorem lookup_argument {run : ScriptRunner} {bound : Nat} {found : TypeRef}
    (hm : m.NamesUndivided)
    (hok : lookupTypeBelow run (bound + 1) .root (m.signature key.withoutConst) .local m =
      .ok found m') : found = key.withoutConst ∧ m' = m := by
  have hnormal : Name.normalizeQuery (m.signature key.withoutConst) =
      m.fullName key.base ++ String.ofList key.markers := by
    rw [Name.normalizeQuery, h.spells_withoutConst.normalizeQueryChars_eq, String.ofList_append,
      String.ofList_toList]
  have hne : Name.normalizeQuery (m.signature key.withoutConst) ≠ "" := by
    simp [hnormal, h.plain.ne_empty]
  have hmarkers : ∀ c ∈ key.markers, TypeQuery.isMarker c = true := TypeRef.isMarker_of_mem_markers
  have hsplit := h.path.split_eq hmarkers
  rw [← hnormal] at hsplit
  split at hsplit
  · rw [lookupTypeBelow_of_error _ hne hsplit] at hok
    cases hok
  · have huntemplated : ((TypeRef.raw key.base).isRaw && (m.node key.base).isTemplate) = false := by
      rw [h.untemplated, Bool.and_false]
    rw [lookupTypeBelow_of_found hne hsplit (h.found hm) huntemplated, TypeRef.applyMarkers_markers]
      at hok
    cases hok
    exact ⟨rfl, rfl⟩

theorem madeSpecialization?_eq_none (ht : m.IsTree) (hstd : m.HasStdTypes std vector map)
    (hm : m.NamesUndivided)
    (hfree : m.findPlain .root (m.vectorQuery key.withoutConst) .local true = none) :
    m.madeSpecialization? vector [key.withoutConst] = none := by
  by_contra hmade
  obtain ⟨made, hmade⟩ := Option.ne_none_iff_exists'.mp hmade
  let part := "vector<" ++ m.signature key.withoutConst ++ ">"
  rw [madeSpecialization?, hstd.specializationScope_vector ht,
    hstd.specializationName_vector ht] at hmade
  have hquery : m.vectorQuery key.withoutConst = "::".intercalate ["std", part] := by
    simp [vectorQuery, part, ← String.toList_inj, String.toList_append]
  have hpart : Path.IsPart part :=
    { h.isPath_specialization "vector" (by decide +kernel) with
      undivided := hm.of_type? hmade }
  have hstdPart : Name.IsWord "std" := by decide +kernel
  have hd : m.descend? .root ["std", part] = some made := by
    simp [descend?, hstd.stdListed, part, hmade]
  rw [hquery, findPlain_of_descend? hm (by simp [hpart, hstdPart.isPart]) (by simp) hd] at hfree
  cases hfree

theorem vector_of_instantiate {resolved : Option TypeRef} {bound : Nat} (ht : m.IsTree)
    (hstd : m.HasStdTypes std vector map) (hm : m.NamesUndivided)
    (hfree : m.findPlain .root (m.vectorQuery key.withoutConst) .local true = none)
    (hok : instantiate (scriptsTo depth)
      (lookupTypeBelow (scriptsTo depth) (bound + 1) .root · .local) .root "std::vector"
      [m.signature key.withoutConst] .local m = .ok resolved m') :
    ∃ v, resolved = some (.raw v) ∧
      (m'.node v).specialization = some ⟨vector, [key.withoutConst]⟩ ∧ Adds none m m' ∧
      m.AddsNamed m' (m.specializationName vector [key.withoutConst]) := by
  rw [instantiate, ModelM.bind_apply, ModelM.get_apply] at hok
  dsimp only at hok
  rw [hstd.findTemplate_vector hm] at hok
  dsimp only at hok
  simp only [List.mapM_cons, List.mapM_nil, bind_assoc, pure_bind] at hok
  obtain ⟨found, m₁, hfound, hmake⟩ := ModelM.bind_eq_ok hok
  obtain ⟨rfl, rfl⟩ := h.lookup_argument hm hfound
  have hunmade := h.madeSpecialization?_eq_none ht hstd hm hfree
  rw [ModelM.bind_apply, ModelM.get_apply] at hmake
  dsimp only at hmake
  rw [hunmade, hstd.fillsVector] at hmake
  obtain ⟨v, m₂, hmade, hlast⟩ := ModelM.bind_eq_ok hmake
  cases hlast
  obtain ⟨-, hrecord⟩ := vector_of_makeSpecialization ht hstd hunmade hmade
  exact ⟨v, rfl, hrecord⟩

end Quotable

theorem vector_of_lookupTypeTo (ht : m.IsTree) (hstd : m.HasStdTypes std vector map)
    (hm : m.NamesUndivided) (hkey : m.Quotable key.base) (hlayers : key.Unstacked)
    (hok : lookupTypeTo depth .root (m.vectorQuery key) .local m = .ok keys m') :
    Adds none m m' ∧ m.AddsNamed m' (m.specializationName vector [key.withoutConst]) ∧
      match m.findPlain .root (m.vectorQuery key.withoutConst) .local true with
      | some found => keys = found
      | none => ∃ v, keys = .raw v ∧
          (m'.node v).specialization = some ⟨vector, [key.withoutConst]⟩ := by
  have hnormal := hkey.normalizeQuery_vectorQuery hlayers
  have hne : Name.normalizeQuery (m.vectorQuery key) ≠ "" := by
    rw [hnormal]
    exact hkey.isPath_vectorQuery.ne_empty
  have hsplit : TypeQuery.split (Name.normalizeQuery (m.vectorQuery key)) =
      .ok (m.vectorQuery key.withoutConst, []) := by
    rw [hnormal]
    simpa using hkey.isPath_vectorQuery.split (List.forall_mem_nil _) (.inl List.not_mem_nil)
  obtain ⟨bound, hbound⟩ := Nat.exists_eq_add_one_of_ne_zero (mt String.length_eq_zero_iff.mp hne)
  rw [lookupTypeTo_eq, lookupTypeWith, hbound, lookupTypeBelow_succ _ hne hsplit] at hok
  obtain ⟨resolved, m₁, hresolved, hconclude⟩ := ModelM.bind_eq_ok hok
  rw [resolveBelow, ModelM.bind_apply, ModelM.get_apply] at hresolved
  dsimp only at hresolved
  have hend : ∀ {found}, resolved = some found → keys = found ∧ m' = m₁ := by
    rintro found rfl
    obtain ⟨ty, rfl, -, ⟨hty, rfl⟩ | ⟨hnone, -⟩⟩ := concludeLookup_ok hconclude
    · obtain rfl := Option.some.inj hty
      exact ⟨rfl, rfl⟩
    · cases hnone
  split
  · next found hfound =>
    rw [hfound] at hresolved
    cases hresolved
    obtain ⟨rfl, rfl⟩ := hend rfl
    exact ⟨.refl _ _, .refl _ _, rfl⟩
  · next hfound =>
    rw [hfound, hkey.split?_vectorQuery] at hresolved
    obtain ⟨v, hv, hmade, hadds, hnamed⟩ := hkey.vector_of_instantiate ht hstd hm hfound hresolved
    obtain ⟨rfl, rfl⟩ := hend hv
    exact ⟨hadds, hnamed, v, rfl, hmade⟩

theorem operations_eq_ok {stored : Operation} (hc : (m.node id).isContainer = true)
    (hp : (m.members id).parents.values = [])
    (ho : (m.members id).operations.overloads name = [stored]) :
    m.operations id name = .ok [stored] := by
  obtain ⟨a, hs⟩ := isContainer_iff.mp hc
  rw [members_of_scope hs] at hp ho
  have htable : m.operationTable id = a.operations := by
    rw [operationTable, operationTableTo, hs]
    simp [hp]
  have hfind : a.operations.find name = [stored] := by
    rw [OperationTable.find_eq_overloads (by simp [ho]), ho]
  have hfound : m.findOperations id name = [stored] := by
    rw [findOperations, htable, hs]
    simp [hfind]
  rw [operations, hfound]

/-- What the script of a map does to its empty class: it looks the vector of the key up, and adds
operations. -/
theorem withOperations_of_fillMap {found : Option TypeRef} (ht : m.IsTree)
    (hstd : m.HasStdTypes std vector map) (hm : m.NamesUndivided) (hkey : m.Quotable key.base)
    (hlayers : key.Unstacked) (hc : (m.node id).isContainer = true)
    (hran : Script.run (lookupTypeTo depth) (StdTypes.fillMap id (key :: value :: rest)) m =
      (.ok found, m')) :
    ∃ sizeType void bool keys m₁,
      m' = m₁.withOperations id (StdTypes.constructors (m₁.node id).name id ++
        StdTypes.mapMethods key value sizeType void bool keys) ∧
      Adds none m m₁ ∧ m.AddsNamed m₁ (m.specializationName vector [key.withoutConst]) ∧
      match m.findPlain .root (m.vectorQuery key.withoutConst) .local true with
      | some found => keys = found
      | none => ∃ v, keys = .raw v ∧
          (m₁.node v).specialization = some ⟨vector, [key.withoutConst]⟩ := by
  obtain ⟨sizeType, hsize⟩ := hstd.lookup_basic "size_t" (by decide) depth
  obtain ⟨void, hvoid⟩ := hstd.lookup_basic "void" (by decide) depth
  obtain ⟨bool, hbool⟩ := hstd.lookup_basic "bool" (by decide) depth
  -- the basic types are there, so the first step that does something is the vector
  have hvector : Script.run (lookupTypeTo depth) (.builtin (m.vectorQuery key) fun keys =>
      .nameOf id fun className => .addOperations id (StdTypes.constructors className id ++
        StdTypes.mapMethods key value (.raw sizeType) (.raw void) (.raw bool) keys) .finish) m =
      (.ok found, m') := by
    refine Eq.trans ?_ hran
    refine Eq.symm ((Script.run_builtin hsize).trans ?_)
    refine (Script.run_builtin hvoid).trans ?_
    exact (Script.run_builtin hbool).trans rfl
  obtain ⟨keys, m₁, hlookup, hrest⟩ := Script.run_builtin_eq_ok hvector
  obtain ⟨hadds, hnamed, hkeys⟩ := vector_of_lookupTypeTo ht hstd hm hkey hlayers hlookup
  have hpaths : ∀ op ∈ StdTypes.constructors (m₁.node id).name id ++
      StdTypes.mapMethods key value (.raw sizeType) (.raw void) (.raw bool) keys,
      op.entity.scopePath = "" := by
    simp [StdTypes.constructors, StdTypes.constructor, StdTypes.mapMethods, StdTypes.method]
  have hc₁ : (m₁.node id).isContainer = true :=
    (hadds.isContainer_eq (knows_of_isContainer hc)).trans hc
  have hrun := (run_addOperations hc₁ hpaths).symm.trans hrest
  exact ⟨_, _, _, keys, m₁, (Prod.mk.inj hrun).2.symm, hadds, hnamed, hkeys⟩

theorem getKeys_of_filled {sizeType void bool : TypeRef} (hc : (m.node id).isContainer = true)
    (hempty : (m.members id).operations = .empty) (hparents : (m.members id).parents.values = [])
    (hname : (m.node id).name ≠ "getKeys")
    (hfilled : m' = m.withOperations id (StdTypes.constructors (m.node id).name id ++
      StdTypes.mapMethods key value sizeType void bool keys)) :
    Adds (some id) m m' ∧
      ∃ op, m'.operations id "getKeys" = .ok [op] ∧ op.returnType = some keys := by
  let methods := StdTypes.mapMethods key value sizeType void bool keys
  let before := StdTypes.constructors (m.node id).name id ++ methods.dropLast
  let getKeys := StdTypes.method "getKeys" keys
  have hops : StdTypes.constructors (m.node id).name id ++ methods = before ++ [getKeys] := by
    simp [before, methods, getKeys, StdTypes.mapMethods]
  have hbefore : ∀ op ∈ before, op.name ≠ getKeys.name := by
    simp [before, methods, getKeys, StdTypes.constructors, StdTypes.constructor,
      StdTypes.mapMethods, StdTypes.method, Operation.name, hname]
  rw [hops] at hfilled
  subst hfilled
  have hfill : Adds (some id) m (m.withOperations id (before ++ [getKeys])) :=
    adds_withOperations ..
  have hunused : (m.members id).operations.overloads getKeys.name = [] := by rw [hempty]; rfl
  obtain ⟨op, hreturn, hoverloads⟩ := overloads_withOperations hc hunused hbefore
  have hk := knows_of_isContainer hc
  refine ⟨hfill, op, operations_eq_ok ?_ ?_ hoverloads, hreturn⟩
  · exact (hfill.isContainer_eq hk).trans hc
  · rw [hfill.parents_eq hk, hparents]

theorem getKeys_of_run {found : Option TypeRef} (ht : m.IsTree)
    (hstd : m.HasStdTypes std vector map) (hm : m.NamesUndivided) (hkey : m.Quotable key.base)
    (hlayers : key.Unstacked) (hempty : m.scope? id = some {})
    (hname : '<' ∈ (m.node id).name.toList)
    (hran : Script.run (lookupTypeTo depth) (StdTypes.fillMap id (key :: value :: rest)) m =
      (.ok found, m')) :
    ∃ op keys, m'.operations id "getKeys" = .ok [op] ∧ op.returnType = some keys ∧
      match m.findPlain .root (m.vectorQuery key.withoutConst) .local true with
      | some found => keys = found
      | none => ∃ v, keys = .raw v ∧
          (m'.node v).specialization = some ⟨vector, [key.withoutConst]⟩ := by
  have hc : (m.node id).isContainer = true := isContainer_iff.mpr ⟨_, hempty⟩
  obtain ⟨_, _, _, keys, m₁, hfilled, hadds, -, hkeys⟩ :=
    withOperations_of_fillMap ht hstd hm hkey hlayers hc hran
  -- the class is still empty when its operations are added
  have hk := knows_of_isContainer hc
  have hmembers : m.members id = {} := members_of_scope hempty
  have hclass : (m₁.node id).name ≠ "getKeys" := fun he => by
    have hsame := TypeNode.entity_eq_of_fixed (hadds.fixed id hk)
    rw [TypeNode.name, ← hsame, ← TypeNode.name, he] at hname
    exact absurd hname (by decide)
  obtain ⟨hfill, op, hop, hreturn⟩ := getKeys_of_filled ((hadds.isContainer_eq hk).trans hc)
    (by rw [hadds.operations_eq hk, hmembers]) (by rw [hadds.parents_eq hk, hmembers]; rfl) hclass
    hfilled
  refine ⟨op, keys, hop, hreturn, ?_⟩
  split at hkeys
  · exact hkeys
  · obtain ⟨v, rfl, hv⟩ := hkeys
    exact ⟨v, rfl, hfill.specialization_eq_some hv⟩

/-- The operation `getKeys` of a new map returns the type that is there under the name of the vector
of the key without const, as it is. If there is none, it returns a class that was made as a vector of
the key without const, and so of another type than the key exactly if that is const somewhere. -/
theorem Begun.getKeys_of_map (h : Begun p m) (hstd : m.HasStdTypes std vector map)
    (hm : m.NamesUndivided)
    (hname : Path.splitFirst? (m.specializationName map (key :: value :: rest)) = none)
    (hkey : m.Quotable key.base) (hlayers : key.Unstacked)
    (hfree : m.madeSpecialization? map (key :: value :: rest) = none)
    (hok : makeSpecialization (scriptsTo depth) map StdTypes.map (key :: value :: rest) m =
      .ok id m') :
    ∃ op keys, m'.operations id "getKeys" = .ok [op] ∧ op.returnType = some keys ∧
      match (m.withNewClass ⟨map, key :: value :: rest⟩).findPlain .root
        (m.vectorQuery key.withoutConst) .local true with
      | some found => keys = found
      | none => ∃ v, keys = .raw v ∧
          (m'.node v).specialization = some ⟨vector, [key.withoutConst]⟩ ∧
          ((m'.node v).specialization = some ⟨vector, [key]⟩ ↔ key.isConst = false) := by
  have hs := h.invariants.1
  have htemplate := isTemplate_of_specializer hstd.fillsMap
  have hc : (m.node (m.specializationScope map)).isContainer = true := by
    rw [hstd.specializationScope_map hs.isTree]
    exact hstd.isContainer_std
  obtain ⟨rfl, found, hran⟩ := made_of_makeSpecialization hc hfree hok
  cases depth with
  | zero => cases hran
  | succ depth =>
    let m₁ := m.withNewClass ⟨map, key :: value :: rest⟩
    have hnode : m₁.node m.next = m.newClass ⟨map, key :: value :: rest⟩ :=
      node_withNewClass_next hc
    have hrun : Script.run (lookupTypeTo depth) (StdTypes.fillMap m.next (key :: value :: rest)) m₁ =
        (.ok found, m') := hran
    obtain ⟨op, keys, hop, hreturn, hkeys⟩ := getKeys_of_run
      ((run_withNewClass hs htemplate hc hfree).sound hs).isTree
      (hstd.withNewClass htemplate hc hfree) (hm.withNewClass hc hname)
      (hkey.withNewClass htemplate hc hfree) hlayers (by rw [scope?, hnode]; rfl)
      (by rw [hnode]; exact m.mem_specializationName _ _) hrun
    refine ⟨op, keys, hop, hreturn, ?_⟩
    have hquery : m₁.vectorQuery key.withoutConst = m.vectorQuery key.withoutConst := by
      have hsignature : m₁.signature key.withoutConst = m.signature key.withoutConst := by
        refine TypeRef.render_congr ?_
        rw [TypeRef.base_withoutConst]
        exact hkey.fullName_withNewClass hc hfree
      rw [vectorQuery, hsignature, vectorQuery]
    rw [hquery] at hkeys
    split at hkeys
    · exact hkeys
    · obtain ⟨v, rfl, hv⟩ := hkeys
      refine ⟨v, rfl, hv, ?_⟩
      rw [hv]
      simp [TypeRef.withoutConst_eq_self_iff]

def constModel : Model := stdModel.afterAll [.addTypedef .root "X" (.const (.raw ⟨7⟩))]

theorem reachable_constModel : Reachable .namesPlain constModel := by
  refine (reachable_stdModel_of .namesPlain).afterAll ?_
  simp only [List.forall_mem_cons, List.not_mem_nil, false_imp_iff, implies_true, and_true]
  exact fun m => ⟨fun _ => by decide, nofun⟩

theorem hasStdTypes_constModel : constModel.HasStdTypes ⟨4⟩ ⟨5⟩ ⟨6⟩ where
  stdListed := by decide +kernel
  vectorListed := by decide +kernel
  mapListed := by decide +kernel
  fillsVector := rfl
  fillsMap := rfl
  basic := by
    simp only [List.forall_mem_cons, List.not_mem_nil, false_imp_iff, implies_true, and_true]
    exact ⟨⟨⟨1⟩, by decide +kernel⟩, ⟨⟨2⟩, by decide +kernel⟩, ⟨3⟩, by decide +kernel⟩

/-- The keys of the map from `const A*` to `n::A` are a vector of `A*`. -/
theorem getKeys_of_pointer_map : ∃ key id m' op v, key = .pointer (.const (.raw ⟨7⟩)) ∧
    makeSpecialization (scriptsTo scriptDepth) ⟨6⟩ StdTypes.map [key, .raw ⟨9⟩] constModel =
      .ok id m' ∧
    m'.operations id "getKeys" = .ok [op] ∧ op.returnType = some (.raw v) ∧
    (m'.node v).specialization = some ⟨⟨5⟩, [.pointer (.raw ⟨7⟩)]⟩ := by
  have h := reachable_constModel
  have hm : constModel.NamesUndivided := SeparatorsEnclosed.undivided (by decide +kernel)
  have hattached : constModel.Attached ⟨7⟩ ([] ++ [_]) := .member .root (by decide +kernel)
  have hquotable : constModel.Quotable ⟨7⟩ := by
    refine hattached.quotable h.sound.isTree h.coherent (by decide) hm ?_ (by decide +kernel)
      (by decide +kernel)
    simp only [List.nil_append, List.forall_mem_singleton]
    exact .word (by decide +kernel)
  let key : TypeRef := .pointer (.const (.raw ⟨7⟩))
  have hkey : constModel.Quotable key.base := hquotable
  have hlayers : key.Unstacked := ⟨nofun, trivial⟩
  have hname : Path.splitFirst? (constModel.specializationName ⟨6⟩ [key, .raw ⟨9⟩]) = none := by
    decide +kernel
  have hfree : constModel.madeSpecialization? ⟨6⟩ [key, .raw ⟨9⟩] = none := by decide +kernel
  have hnew : (constModel.withNewClass ⟨⟨6⟩, [key, .raw ⟨9⟩]⟩).findPlain .root
      (constModel.vectorQuery key.withoutConst) .local true = none := by decide +kernel
  have hmade : constModel.sizeAfterFailure (makeSpecialization (scriptsTo scriptDepth) ⟨6⟩
      StdTypes.map [key, .raw ⟨9⟩]) = none := by decide +kernel
  obtain ⟨id, hok⟩ := sizeAfterFailure_eq_none hmade
  have hmap := Begun.getKeys_of_map h.exists_run hasStdTypes_constModel hm hname hkey hlayers hfree
    hok
  rw [hnew] at hmap
  obtain ⟨op, _, hop, hreturn, v, rfl, hv, -⟩ := hmap
  exact ⟨key, id, _, op, v, rfl, hok, hop, hreturn, hv⟩

/-- The records of the class that a query leads to, and of the class that its operation `getKeys`
returns. -/
def keyRecords? (m : Model) (query : String) : Option (List (Option Specialization)) :=
  match lookupType .root query .local m with
  | .error _ _ => none
  | .ok ty m' =>
    match m'.operations ty.base "getKeys" with
    | .ok [op] => op.returnType.map fun keys =>
      [(m'.node ty.base).specialization, (m'.node keys.base).specialization]
    | _ => none

theorem keyRecords?_eq_some {query : String} {made keys : Option Specialization}
    (h : m.keyRecords? query = some [made, keys]) :
    ∃ ty m' op returned, lookupType .root query .local m = .ok ty m' ∧
      (m'.node ty.base).specialization = made ∧ m'.operations ty.base "getKeys" = .ok [op] ∧
      op.returnType = some returned ∧ (m'.node returned.base).specialization = keys := by
  unfold keyRecords? at h
  split at h
  · cases h
  · next ty m' hok =>
    split at h
    · next op hop =>
      obtain ⟨returned, hreturn, hrecords⟩ := Option.map_eq_some_iff.mp h
      simp only [List.cons.injEq, and_true] at hrecords
      exact ⟨ty, m', op, returned, hok, hrecords.1, hop, hreturn, hrecords.2⟩
    · cases h

/-- The typedef `X` stands for `const A`, and the keys of the map from it are a vector of `A`. -/
theorem getKeys_misses_const : ∃ m ty m' op keys, Reachable .namesPlain m ∧
    m.HasStdTypes ⟨4⟩ ⟨5⟩ ⟨6⟩ ∧
    lookupType .root "std::map<X,A>" .local m = .ok ty m' ∧
    (m'.node ty.base).specialization = some ⟨⟨6⟩, [.const (.raw ⟨7⟩), .raw ⟨7⟩]⟩ ∧
    m'.operations ty.base "getKeys" = .ok [op] ∧ op.returnType = some keys ∧
    (m'.node keys.base).specialization = some ⟨⟨5⟩, [.raw ⟨7⟩]⟩ := by
  have hrecords : constModel.keyRecords? "std::map<X,A>" =
      some [some ⟨⟨6⟩, [.const (.raw ⟨7⟩), .raw ⟨7⟩]⟩, some ⟨⟨5⟩, [.raw ⟨7⟩]⟩] := by decide +kernel
  obtain ⟨ty, m', op, keys, hok, hmade, hop, hreturn, hkeys⟩ := keyRecords?_eq_some hrecords
  exact ⟨constModel, ty, m', op, keys, reachable_constModel, hasStdTypes_constModel, hok, hmade, hop,
    hreturn, hkeys⟩

end Model

end ApiModel
