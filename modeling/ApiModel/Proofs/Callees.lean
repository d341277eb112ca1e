import ApiModel.Proofs.Defaults
import ApiModel.Proofs.Identifiers
import ApiModel.Proofs.InheritedNames
import ApiModel.Proofs.Landing

/-!
Calls of operations in default values. Types are sought around the scope of the operation, but
operations in this scope only, so a call is written with a full name exactly if no scope around has
to be asked.
-/

namespace ApiModel

namespace Path

theorem front_qualify (path name : String) :
    ∃ between, front (qualify path name) = front path ++ between ∧
      (between = [] ∨ [':', ':'] <:+ between) := by
  by_cases hempty : qualify path name = ""
  · have hpath : path = "" := by
      by_contra hne
      simp [qualify, hne] at hempty
    exact ⟨[], by rw [hempty, hpath, List.append_nil], .inl rfl⟩
  · refine ⟨name.toList ++ [':', ':'], ?_, .inr (List.suffix_append _ _)⟩
    rw [front, if_neg hempty, toList_qualify, List.append_assoc]

theorem qualify_ne_of_front {path path' name name' : String} {between : List Char}
    (hfront : front path = front path' ++ between)
    (hbetween : between = [] ∨ [':', ':'] <:+ between)
    (hname' : Name.IsIdentifier name') (hne : name ≠ name') :
    qualify path name ≠ qualify path' name' := by
  intro he
  have hlist := congrArg String.toList he
  rw [toList_qualify, toList_qualify, hfront, List.append_assoc] at hlist
  have hrest := List.append_cancel_left hlist
  obtain rfl | hcolons := hbetween
  · exact hne (String.toList_inj.mp hrest)
  · have hcolon : ':' ∈ between := hcolons.subset List.mem_cons_self
    exact hname'.not_mem (by decide) (hrest ▸ List.mem_append_left name.toList hcolon)

end Path

theorem OperationTable.exists_overloads_of_find {t : OperationTable} {name : String}
    {op : Operation} (h : op ∈ t.find name) : ∃ name', op ∈ t.overloads name' := by
  unfold find at h
  split at h
  · obtain ⟨place, -, hplace⟩ := List.mem_filterMap.mp h
    exact ⟨place.1, List.mem_of_getElem? hplace⟩
  · next hne => exact ⟨name, h⟩

theorem OperationTable.find_eq_overloads {t : OperationTable} {name : String}
    (h : t.overloads name ≠ []) : t.find name = t.overloads name := by
  unfold find
  split
  · next hnil => exact absurd hnil h
  · rfl

namespace Model

variable {p : Policy} {m : Model} {s t scope : TypeId} {e op : Operation} {parameter : Parameter}
  {callee arguments : String}

theorem Below.scopePath_eq (ht : m.IsTree) (hc : m.Coherent) (hm : m.Member s scope)
    (hb : m.Below scope .root) :
    m.scopePath s = Path.qualify (m.scopePath scope) (m.node s).name := by
  have hroot : (m.node s).isRoot = false := by
    simpa [Bool.eq_false_iff, ht.isRoot_iff] using ht.ne_root_of_owned hm.1
  obtain ⟨members, hscope⟩ := isContainer_iff.mp hm.2
  have hjoined := eq_root_or_owned_of_inside hb.inside
  rw [← (hc.placed scope hjoined members hscope).1 s hm.1, scopePath, hroot]
  rfl

/-- The paths of the scopes around a scope are the beginnings of its own path. -/
theorem Below.front_scopePath (ht : m.IsTree) (hc : m.Coherent) (hb : m.Below s .root)
    (hi : m.Inside s t) : m.Below t .root ∧
      ∃ between, Path.front (m.scopePath s) = Path.front (m.scopePath t) ++ between ∧
        (between = [] ∨ [':', ':'] <:+ between) := by
  induction hb using Relation.ReflTransGen.head_induction_on with
  | refl =>
    obtain rfl | ⟨owner, ho, -⟩ := hi.cases_head
    · exact ⟨.refl, [], (List.append_nil _).symm, .inl rfl⟩
    · exact absurd (ho.symm.trans ht.root_owner) nofun
  | @head a c hac hcb ih =>
    obtain rfl | ⟨owner, ho, hi⟩ := hi.cases_head
    · exact ⟨.head hac hcb, [], (List.append_nil _).symm, .inl rfl⟩
    · obtain rfl := ho.unique hac.1
      obtain ⟨hbt, between, hfront, hbetween⟩ := ih hi
      obtain ⟨last, hlast, hcolons⟩ := Path.front_qualify (m.scopePath owner) (m.node a).name
      refine ⟨hbt, between ++ last, ?_, ?_⟩
      · rw [Below.scopePath_eq ht hc hac hcb, hlast, hfront, List.append_assoc]
      · obtain rfl | hcolons := hcolons
        · rwa [List.append_nil]
        · exact .inr (hcolons.trans (List.suffix_append between last))

theorem scopePath_of_mem_operationTable (h : Lineage p m) (hc : m.Coherent)
    (hs : s = .root ∨ m.owner? s ≠ none) (he : e ∈ (m.operationTable s).toList) :
    e.entity.scopePath = m.scopePath s := by
  obtain ⟨base, o, hcopy⟩ := h.exists_copiedFrom s e he
  clear he
  induction hcopy with
  | stored hscope hmem =>
    exact (hc.placed base hs _ hscope).2 _ (Scope.mem_entities.mpr (.inl ⟨o, hmem, rfl⟩))
  | marked _ _ ih => exact ih hs
  | @inherited id parent c _ _ t ih =>
    exact (t.sameDeclaration_stored m.libraryPrefix (m.inheritedForm id c)).scopePath

theorem fullName_of_overloads (h : Lineage p m) (hc : m.Coherent)
    (hs : s = .root ∨ m.owner? s ≠ none) {name : String}
    (he : e ∈ (m.operationTable s).overloads name) :
    e.entity.fullName = Path.qualify (m.scopePath s) name := by
  rw [Entity.fullName, scopePath_of_mem_operationTable h hc hs
    (OperationTable.mem_toList_of_mem_overloads he)]
  exact congrArg _ (grouped_operationTable h s name e he)

/-- The scope or one around it has operations of the name; a class has those that it inherits,
too. -/
def SeesOperation (m : Model) (scope : TypeId) (name : String) : Prop :=
  ∃ t, m.Inside scope t ∧ (m.operationTable t).overloads name ≠ []

def CallsSeen (m : Model) (scope : TypeId) (name arguments : String)
    (value : Except ModelError (Option String)) : Prop :=
  ∃ t, m.Inside scope t ∧ ∃ e ∈ (m.operationTable t).overloads name,
    value = .ok (some (e.entity.fullName ++ "(" ++ arguments ++ ")"))

structure CallsWhatIsSeen (m : Model) (scope : TypeId) (name arguments : String)
    (value : Except ModelError (Option String)) : Prop where
  called : m.SeesOperation scope name → m.CallsSeen scope name arguments value
  misparsed : ∀ text operation, value = .error (.misparsedDefaultValue text operation) →
    ¬ m.SeesOperation scope name

/-- A call whose name is no type is one of the first operation that the scope itself has under the
name. -/
theorem normalizedDefault_of_operation (hcall : m.call? parameter = some (callee, arguments))
    (hf : Name.IsIdentifier callee) (htype : m.findType scope callee .owners = none)
    (operation : String) : ∃ value ∈ parameter.defaultValue,
      m.normalizedDefault scope operation parameter =
        match m.findOperations scope callee with
        | [] => .error (.misparsedDefaultValue value operation)
        | e :: _ => .ok (some (e.entity.fullName ++ "(" ++ arguments ++ ")")) := by
  have hcut : Path.cutLast 0 callee.toList = none := hf.isSingle.undivided
  have hparent : Path.parent callee = "" := by rw [Path.parent, hcut]
  have hbase : Path.baseName callee = callee := by rw [Path.baseName, hcut]
  have hname : m.calleeName? scope callee =
      (m.findOperations scope callee).head?.map (·.entity.fullName) := by
    rw [calleeName?, htype]
    dsimp only
    rw [if_pos hparent, hbase, Option.bind_some]
  unfold call? at hcall
  split at hcall
  · cases hcall
  · next hkind =>
    obtain ⟨value, hvalue, hsplit⟩ := Option.bind_eq_some_iff.mp hcall
    refine ⟨value, hvalue, ?_⟩
    cases hops : m.findOperations scope callee <;>
      simp [normalizedDefault, hvalue, hkind, hsplit, hname, hops]

theorem callsSeen_of_overloads (h : Lineage p m)
    (hcall : m.call? parameter = some (callee, arguments)) (hf : Name.IsIdentifier callee)
    (htype : m.findType s callee .owners = none) (operation : String)
    (hhas : (m.operationTable s).overloads callee ≠ []) :
    m.CallsSeen s callee arguments (m.normalizedDefault s operation parameter) := by
  obtain ⟨value, -, hvalue⟩ := normalizedDefault_of_operation hcall hf htype operation
  obtain ⟨e, ops, hops⟩ := List.exists_cons_of_ne_nil hhas
  refine ⟨s, .refl, e, hops ▸ List.mem_cons_self, ?_⟩
  rw [hvalue, findOperations_eq h, OperationTable.find_eq_overloads hhas, hops]

theorem overloads_of_callsSeen (h : Lineage p m) (ht : m.IsTree) (hc : m.Coherent)
    (hb : m.Below s .root) (hcall : m.call? parameter = some (callee, arguments))
    (hf : Name.IsIdentifier callee) (htype : m.findType s callee .owners = none)
    (operation : String)
    (hcalls : m.CallsSeen s callee arguments (m.normalizedDefault s operation parameter)) :
    (m.operationTable s).overloads callee ≠ [] := by
  intro hnone
  obtain ⟨value, -, hvalue⟩ := normalizedDefault_of_operation hcall hf htype operation
  obtain ⟨t, hi, e, he, hcalls⟩ := hcalls
  rw [hvalue] at hcalls
  cases hops : m.findOperations s callee with
  | nil =>
    rw [hops] at hcalls
    cases hcalls
  | cons found ops =>
    rw [hops] at hcalls
    have hfind : found ∈ (m.operationTable s).find callee := by
      rw [← findOperations_eq h, hops]
      exact List.mem_cons_self
    obtain ⟨name, hfound⟩ := OperationTable.exists_overloads_of_find hfind
    have hne : name ≠ callee := by
      rintro rfl
      rw [hnone] at hfound
      cases hfound
    obtain ⟨hbt, between, hfront, hbetween⟩ := hb.front_scopePath ht hc hi
    refine Path.qualify_ne_of_front hfront hbetween hf hne ?_
    rw [← fullName_of_overloads h hc (eq_root_or_owned_of_inside hb.inside) hfound,
      ← fullName_of_overloads h hc (eq_root_or_owned_of_inside hbt.inside) he]
    simpa using hcalls

/-- Default values of an operation are read from its scope, one for each parameter. A call of an
identifier that is no type there is misparsed exactly if the scope itself has no operation under the
name. So it is a call of what is seen if all that is seen is in the scope itself; and where the
scope is listed up to the root, only then. -/
theorem Reachable.calls_of_operations (h : Reachable p m) {members : Scope}
    (hs : m.scope? s = some members) (hop : op ∈ members.operations.toList)
    (hcall : m.call? parameter = some (callee, arguments)) (hf : Name.IsIdentifier callee)
    (htype : m.findType s callee .owners = none) :
    m.defaultValues op = op.parameters.mapM (m.normalizedDefault s (op.signature m.fullName)) ∧
    ((∃ value ∈ parameter.defaultValue,
      m.normalizedDefault s (op.signature m.fullName) parameter =
        .error (.misparsedDefaultValue value (op.signature m.fullName))) ↔
      m.findOperations s callee = []) ∧
    ((m.SeesOperation s callee → (m.operationTable s).overloads callee ≠ []) →
      m.CallsWhatIsSeen s callee arguments
        (m.normalizedDefault s (op.signature m.fullName) parameter)) ∧
    (m.Below s .root →
      m.CallsWhatIsSeen s callee arguments
        (m.normalizedDefault s (op.signature m.fullName) parameter) →
      m.SeesOperation s callee → (m.operationTable s).overloads callee ≠ []) := by
  obtain ⟨value, hmem, hvalue⟩ :=
    normalizedDefault_of_operation hcall hf htype (op.signature m.fullName)
  refine ⟨?_, ?_, fun hown => ⟨fun hsees => ?_, fun text operation he hsees => ?_⟩,
    fun hb hlaw hsees => ?_⟩
  · exact defaultValues_eq
      (h.coherent.owned s members hs op.entity (Scope.mem_entities.mpr (.inl ⟨op, hop, rfl⟩)))
  · rw [hvalue]
    cases m.findOperations s callee with
    | nil => exact iff_of_true ⟨value, hmem, rfl⟩ rfl
    | cons => exact iff_of_false (fun ⟨_, _, he⟩ => nomatch he) (List.cons_ne_nil _ _)
  · exact callsSeen_of_overloads h.lineage hcall hf htype _ (hown hsees)
  · obtain ⟨_, _, _, _, hok⟩ := callsSeen_of_overloads h.lineage hcall hf htype _ (hown hsees)
    rw [he] at hok
    cases hok
  · exact overloads_of_callsSeen h.lineage h.sound.isTree h.coherent hb hcall hf htype _
      (hlaw.called hsees)

def madeSize : Parameter :=
  { entity := { name := "size" }, type := .raw ⟨2⟩, defaultValue := some "make()" }

def drawing (scope : TypeId) : Model :=
  bare.afterAll [.addType .root (declaration .classType "" "C") true,
    .addType .root (declaration .classType "" "Size") true,
    .addOperation scope { entity := { name := "make" } },
    .addOperation ⟨1⟩ { entity := { name := "draw" }, parameters := [madeSize] }]

theorem isIdentifier_make : Name.IsIdentifier "make" :=
  (show Name.IsWord "make" by decide +kernel).toIsIdentifier

theorem reachable_drawing (scope : TypeId) : Reachable .free (drawing scope) := by
  refine reachable_bare.afterAll fun action ha m => ?_
  simp only [List.mem_cons, List.not_mem_nil, or_false] at ha
  obtain rfl | rfl | rfl | rfl := ha
  · exact isFresh_declaration nofun nofun
  · exact isFresh_declaration nofun nofun
  · exact nofun
  · exact nofun

/-- If `C` has the operation itself, the default value is a call of `C::make`. -/
theorem calls_of_operations_in_class : ∃ m op, Reachable .free m ∧
    m.defaultValues op = op.parameters.mapM (m.normalizedDefault ⟨1⟩ (op.signature m.fullName)) ∧
      op.parameters = [madeSize] ∧ m.SeesOperation ⟨1⟩ "make" ∧
      m.CallsSeen ⟨1⟩ "make" ""
        (m.normalizedDefault ⟨1⟩ (op.signature m.fullName) madeSize) := by
  have hstored : ∃ members ∈ (drawing ⟨1⟩).scope? ⟨1⟩, ∃ op ∈ members.operations.toList,
      op.parameters = [madeSize] := by decide +kernel
  obtain ⟨members, hs, op, hop, hparameters⟩ := hstored
  have hhas : ((drawing ⟨1⟩).operationTable ⟨1⟩).overloads "make" ≠ [] := by decide +kernel
  have hsees : (drawing ⟨1⟩).SeesOperation ⟨1⟩ "make" := ⟨⟨1⟩, .refl, hhas⟩
  have hcall : (drawing ⟨1⟩).call? madeSize = some ("make", "") := by decide +kernel
  have hlaws := (reachable_drawing ⟨1⟩).calls_of_operations hs hop hcall
    isIdentifier_make (by decide +kernel)
  exact ⟨_, op, reachable_drawing ⟨1⟩, hlaws.1, hparameters, hsees,
    (hlaws.2.2.1 fun _ => hhas).called hsees⟩

/-- The operation `make` around `C` is not called by the default value of `draw` in `C`: the value
is misparsed. -/
theorem outer_operation_not_called : ∃ m op, Reachable .free m ∧
    (∃ members ∈ m.scope? ⟨1⟩, op ∈ members.operations.toList) ∧ op.parameters = [madeSize] ∧
    m.call? madeSize = some ("make", "") ∧ Name.IsIdentifier "make" ∧
    m.findType ⟨1⟩ "make" .owners = none ∧ m.Inside ⟨1⟩ .root ∧
    (∃ members ∈ m.scope? .root, members.operations.overloads "make" ≠ []) ∧
    m.defaultValues op =
      .error (.misparsedDefaultValue "make()" "C::draw(Size size = make())") := by
  have hstored : ∃ members ∈ (drawing .root).scope? ⟨1⟩, ∃ op ∈ members.operations.toList,
      op.parameters = [madeSize] ∧ (drawing .root).defaultValues op =
        .error (.misparsedDefaultValue "make()" "C::draw(Size size = make())") := by decide +kernel
  obtain ⟨members, hs, op, hop, hparameters, hfails⟩ := hstored
  exact ⟨_, op, reachable_drawing .root, ⟨members, hs, hop⟩, hparameters, by decide +kernel,
    isIdentifier_make, by decide +kernel, .single (show _ = _ by decide +kernel),
    by decide +kernel, hfails⟩

end Model

end ApiModel
