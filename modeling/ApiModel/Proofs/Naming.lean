import ApiModel.Proofs.EmptyNames

/-!
Models in which nothing has the empty name. Types, operations, attributes and constants get their
names from callers, and from the scripts that lookups run; as long as neither give an empty one, no
scope stores anything under it. The scripts of the standard templates give none.
-/

namespace ApiModel

def Name.IsNameless (text : String) : Prop := ∃ e, Entity.ofName text = .ok e ∧ e.name = ""

theorem Name.isNameless_iff {text : String} :
    IsNameless text ↔ ∃ path, normalize text = .ok path ∧ Path.baseName path = "" := by
  constructor
  · rintro ⟨e, he, hname⟩
    obtain ⟨path, hpath, rfl⟩ := Entity.ofName_eq_ok he
    exact ⟨path, hpath, hname⟩
  · rintro ⟨path, hpath, hname⟩
    exact ⟨_, by rw [Entity.ofName, hpath]; rfl, hname⟩

/-- Whatever it learns, the script gives no empty name, nor does a hook that it installs. It may
count on the names of the types in `named` not to be empty. -/
def Script.NamesAll : Script → (named : TypeId → Prop) → Prop
  | done _, _ => True
  | nameOf id next, named => ∀ name, (named id → name ≠ "") → (next name).NamesAll named
  | signatureOf _ next, named => ∀ text, (next text).NamesAll named
  | lookup _ _ _ next, named => ∀ result, (next result).NamesAll named
  | declare _ _ name next, named =>
    ¬ Name.IsNameless name ∧ ∀ result, (next result).NamesAll named
  | addOperation _ op next, named => op.name ≠ "" ∧ ∀ result, (next result).NamesAll named
  | installHook _ answer next, named =>
    (∀ scope name, (answer scope name).NamesAll fun _ => False) ∧ next.NamesAll named
  | removeHook next, named => next.NamesAll named

def Hook.NamesAll (hook : Hook) : Prop :=
  ∀ scope name, (hook.answer scope name).NamesAll fun _ => False

def Specializer.NamesAll (specializer : Specializer) : Prop :=
  ∀ id arguments, (specializer.fill id arguments).NamesAll (· = id)

namespace StdTypes

variable {named : TypeId → Prop} {id : TypeId}

theorem namesAll_proceed {α : Type} {next : α → Script} (h : ∀ a, (next a).NamesAll named)
    (result : Except ModelError α) : (Script.proceed next result).NamesAll named := by
  cases result with
  | ok a => exact h a
  | error failure => trivial

theorem namesAll_builtin {name : String} {next : TypeRef → Script}
    (h : ∀ ty, (next ty).NamesAll named) : (Script.builtin name next).NamesAll named :=
  namesAll_proceed h

theorem namesAll_finish : Script.finish.NamesAll named := trivial

theorem namesAll_addOperations {next : Script} (hn : next.NamesAll named) {ops : List Operation}
    (ho : ∀ op ∈ ops, op.name ≠ "") : (Script.addOperations id ops next).NamesAll named := by
  induction ops with
  | nil => exact hn
  | cons op ops ih =>
    obtain ⟨hop, hops⟩ := List.forall_mem_cons.mp ho
    exact ⟨hop, namesAll_proceed fun _ => ih hops⟩

theorem namesAll_vector : vector.NamesAll := by
  rintro id (_ | ⟨value, _ | _⟩)
  · trivial
  · refine namesAll_builtin fun sizeType => namesAll_builtin fun void =>
      namesAll_builtin fun bool => fun valueText className hname =>
        namesAll_addOperations namesAll_finish ?_
    simp [constructors, constructor, vectorMethods, method, swap, Operation.name, hname rfl]
  · trivial

theorem namesAll_map : map.NamesAll := by
  rintro id (_ | ⟨key, _ | ⟨value, _⟩⟩)
  · trivial
  · trivial
  · refine namesAll_builtin fun sizeType => namesAll_builtin fun void =>
      namesAll_builtin fun bool => fun keyText => namesAll_builtin fun keys =>
        fun className hname => namesAll_addOperations namesAll_finish ?_
    simp [constructors, constructor, mapMethods, method, Operation.name, hname rfl]

end StdTypes

namespace Scope

variable {a : Scope}

def memberNames (a : Scope) : List String :=
  a.operations.names ++ a.attributes.keys ++ a.constants.keys

def names (a : Scope) : List String := a.types.keys ++ a.memberNames

theorem memberNames_setMemberPaths (path : String) (a : Scope) :
    (a.setMemberPaths path).memberNames = a.memberNames := by
  simp [memberNames, setMemberPaths, OperationTable.names, OperationTable.map]

theorem memberNames_enterType (e : Entity) (id : TypeId) (a : Scope) :
    (a.enterType e id).memberNames = a.memberNames := by
  unfold enterType
  split <;> rfl

theorem memberNames_use (id : TypeId) (a : Scope) : (a.use id).memberNames = a.memberNames := by
  unfold use
  split <;> rfl

end Scope

theorem OrderedMap.mem_keys_insert {κ ν : Type} [DecidableEq κ] {m : OrderedMap κ ν}
    {key key' : κ} {value : ν} : key' ∈ (m.insert key value).keys ↔ key' ∈ m.keys ∨ key' = key := by
  rw [keys_insert]
  split
  · next hmem => exact ⟨.inl, fun h => h.elim id fun he => he ▸ hmem⟩
  · simp

theorem OperationTable.mem_names_insert {t : OperationTable} {libraryPrefix name : String}
    {op : Operation} :
    name ∈ (t.insert libraryPrefix op).names ↔ name ∈ t.names ∨ name = op.name := by
  have hname : (t.stored libraryPrefix op).name = op.name :=
    (t.sameDeclaration_stored libraryPrefix op).name
  rw [insert, names, groups_push, OrderedMap.mem_keys_insert, hname, names]

namespace Scope

variable {name : String}

theorem mem_memberNames_insertOperation {libraryPrefix : String} {op : Operation} {s : Scope} :
    name ∈ { s with operations := s.operations.insert libraryPrefix op }.memberNames ↔
      name ∈ s.memberNames ∨ name = op.name := by
  simp only [memberNames, List.mem_append, OperationTable.mem_names_insert]
  tauto

theorem mem_memberNames_insertAttribute {key : String} {a : Attribute} {s : Scope} :
    name ∈ { s with attributes := s.attributes.insert key a }.memberNames ↔
      name ∈ s.memberNames ∨ name = key := by
  simp only [memberNames, List.mem_append, OrderedMap.mem_keys_insert]
  tauto

theorem mem_memberNames_insertConstant {key : String} {c : Constant} {s : Scope} :
    name ∈ { s with constants := s.constants.insert key c }.memberNames ↔
      name ∈ s.memberNames ∨ name = key := by
  simp only [memberNames, List.mem_append, OrderedMap.mem_keys_insert]
  tauto

end Scope

/-- The node has no member with the empty name, and if it is a template its script gives none. -/
structure TypeNode.NamesAll (node : TypeNode) : Prop where
  members : "" ∉ (node.scope?.getD {}).memberNames
  specializer : ∀ specializer, node.specializer? = some specializer → specializer.NamesAll

structure TypeNode.IsNamed (node : TypeNode) : Prop extends node.NamesAll where
  name : node.name ≠ ""

theorem TypeNode.isNamed_of_ofName {name : String} {kind : TypeKind} {node : TypeNode}
    (hn : ¬ Name.IsNameless name) (hmembers : ∀ a, node.scope? = some a → a = {})
    (hspecializer : ∀ specializer, node.specializer? = some specializer → specializer.NamesAll)
    (h : ofName name kind = .ok node) : node.IsNamed where
  members := by
    cases ha : node.scope? with
    | none => exact List.not_mem_nil
    | some a =>
      rw [hmembers a ha]
      exact List.not_mem_nil
  specializer := hspecializer
  name he := by
    obtain ⟨e, hofName, rfl⟩ := ofName_eq_ok h
    exact hn ⟨e, hofName, he⟩

theorem PlainKind.isNamed_of_ofName {kind : PlainKind} {name : String} {node : TypeNode}
    (hn : ¬ Name.IsNameless name) (h : TypeNode.ofName name kind.toTypeKind = .ok node) :
    node.IsNamed := by
  have hsimple := PlainKind.isSimple_of_ofName h
  refine TypeNode.isNamed_of_ofName hn hsimple.members (fun specializer hs => ?_) h
  rw [hsimple.specializer] at hs
  cases hs

theorem TypeNode.isNamed_of_template {name : String} {specializer : Specializer} {node : TypeNode}
    (hn : ¬ Name.IsNameless name) (hs : specializer.NamesAll)
    (h : ofName name (.template specializer) = .ok node) : node.IsNamed := by
  refine isNamed_of_ofName hn (isBlank_of_template h).members (fun specializer' hs' => ?_) h
  obtain ⟨e, -, rfl⟩ := ofName_eq_ok h
  cases hs'
  exact hs

theorem TypeNode.isNamed_specialized {name : String} (hn : name ≠ "") (made : Specialization) :
    (specialized name made).IsNamed := ⟨⟨List.not_mem_nil, nofun⟩, hn⟩

namespace Model

variable {m m' m'' : Model} {id scope : TypeId} {node : TypeNode} {run : ScriptRunner}

/-- All types but the root have names and so do all members, and no program gives an empty one. -/
structure Named (m : Model) : Prop where
  name : ∀ id, m.Knows id → id ≠ .root → (m.node id).name ≠ ""
  node : ∀ id, (m.node id).NamesAll
  hook : ∀ hook, m.hook = some hook → hook.NamesAll

structure KeepsNamed (m m' : Model) : Prop where
  keeps : m.Named → m.size ≤ m'.size ∧ m'.Named

theorem knows_allocated_iff : (m.allocated node).Knows id ↔ m.Knows id ∨ id = m.next := by
  obtain ⟨i⟩ := id
  rw [Knows, Knows, size_allocated, next, TypeId.mk.injEq]
  exact Nat.lt_succ_iff_lt_or_eq

namespace KeepsNamed

theorem refl (m : Model) : KeepsNamed m m := ⟨fun h => ⟨le_rfl, h⟩⟩

theorem trans_of_size_le (h : KeepsNamed m m') (h' : m.size ≤ m'.size → KeepsNamed m' m'') :
    KeepsNamed m m'' := ⟨fun hm =>
  have hm' := h.keeps hm
  ((h' hm'.1).keeps hm'.2).imp_left hm'.1.trans⟩

theorem trans (h : KeepsNamed m m') (h' : KeepsNamed m' m'') : KeepsNamed m m'' :=
  h.trans_of_size_le fun _ => h'

theorem modifyNode {f : TypeNode → TypeNode}
    (hname : (m.node id).name ≠ "" → (f (m.node id)).name ≠ "")
    (hnode : (m.node id).NamesAll → (f (m.node id)).NamesAll) :
    KeepsNamed m (m.modifyNode id f) where
  keeps hm := by
    refine ⟨(m.size_modifyNode id f).ge, fun j hj hr => ?_, fun j => ?_, hm.hook⟩
    · exact rel_modifyNode (R := fun a b => a.name ≠ "" → b.name ≠ "") (fun _ h => h) hname j
        (hm.name j ((knows_modifyNode _ _).mp hj) hr)
    · exact rel_modifyNode (R := fun a b => a.NamesAll → b.NamesAll) (fun _ h => h) hnode j
        (hm.node j)

theorem modifyScope {f : Scope → Scope}
    (hf : ∀ a : Scope, "" ∉ a.memberNames → "" ∉ (f a).memberNames) :
    KeepsNamed m (m.modifyNode id (·.mapScope f)) := by
  refine modifyNode (fun h => by rwa [TypeNode.name_mapScope]) fun h => ⟨?_, ?_⟩
  · have hmembers := h.members
    rw [TypeNode.scope?_mapScope]
    cases ha : (m.node id).scope? with
    | none => exact List.not_mem_nil
    | some a =>
      rw [ha] at hmembers
      exact hf a hmembers
  · rw [TypeNode.specializer?_mapScope]
    exact h.specializer

theorem modifyEntity {f : Entity → Entity} (hf : ∀ e : Entity, e.name ≠ "" → (f e).name ≠ "") :
    KeepsNamed m (m.modifyNode id (·.mapEntity f)) :=
  modifyNode (hf _) fun h => ⟨h.members, h.specializer⟩

theorem allocated (hn : node.IsNamed) : KeepsNamed m (m.allocated node) where
  keeps hm := by
    have hsize : m.size ≤ (m.allocated node).size := by simp
    refine ⟨hsize, fun j hj hr => ?_, fun j => ?_, hm.hook⟩ <;> by_cases he : j = m.next
    · rw [he, node_allocated_next]
      exact hn.name
    · rw [node_allocated_of_ne he]
      exact hm.name j ((knows_allocated_iff.mp hj).resolve_right he) hr
    · rw [he, node_allocated_next]
      exact hn.toNamesAll
    · rw [node_allocated_of_ne he]
      exact hm.node j

theorem annotated {f : TypeNode → TypeNode} (h : (m.node id).Annotated .free (f (m.node id))) :
    KeepsNamed m (m.modifyNode id f) := by
  refine modifyNode (fun hn => by rwa [h.name]) fun hn => ⟨?_, ?_⟩
  · rw [h.scope]
    exact hn.members
  · rw [h.specializer]
    exact hn.specializer

theorem repathed (h : m.Repathed m') : KeepsNamed m m' where
  keeps hm := by
    refine ⟨h.size_eq.ge, fun id hk hr => ?_, fun id => ⟨?_, ?_⟩, fun hook hh => ?_⟩
    · rw [(h.node id).sameShape.name]
      exact hm.name id (by rwa [Knows, ← h.size_eq]) hr
    · have hsame := (h.node id).map_scope?_eq Scope.memberNames_setMemberPaths
      have hmembers := (hm.node id).members
      cases ha : (m.node id).scope? <;> cases ha' : (m'.node id).scope? <;>
        simp_all
    · rw [(h.node id).specializer?_eq]
      exact (hm.node id).specializer
    · exact hm.hook hook (h.hook_eq ▸ hh)

theorem consulted {hook : Option Hook} (hh : ∀ h, hook = some h → h.NamesAll)
    (journal : List Consultation) : KeepsNamed m { m with hook, journal } :=
  ⟨fun hm => ⟨le_rfl, hm.name, hm.node, hh⟩⟩

theorem unhooked (journal : List Consultation) :
    KeepsNamed m { m with hook := none, journal } :=
  consulted (fun _ he => absurd he.symm (Option.some_ne_none _)) journal

theorem withOperation {op : Operation} (hop : op.name ≠ "") (m : Model) (scope : TypeId) :
    KeepsNamed m (m.withOperation scope op) := modifyScope fun _ ha hmem =>
  (Scope.mem_memberNames_insertOperation.mp hmem).elim ha fun he => hop he.symm

theorem withAttribute {a : Attribute} (hn : a.name ≠ "") (m : Model) (scope : TypeId) :
    KeepsNamed m (m.withAttribute scope a) := modifyScope fun _ ha hmem =>
  (Scope.mem_memberNames_insertAttribute.mp hmem).elim ha fun he => hn he.symm

theorem withConstant {c : Constant} (hn : c.name ≠ "") (m : Model) (scope : TypeId) :
    KeepsNamed m (m.withConstant scope c) := modifyScope fun _ ha hmem =>
  (Scope.mem_memberNames_insertConstant.mp hmem).elim ha fun he => hn he.symm

theorem coversChanges : CoversChanges TypeNode.IsNamed KeepsNamed where
  refl := refl
  trans := trans
  namespaceMade {part path _} hpath hpart hne hn := by
    refine PlainKind.isNamed_of_ofName ?_ hn
    rintro ⟨e, he, hname⟩
    rw [Entity.ofName_of_mem_components hpath hpart hne] at he
    cases he
    exact hne hname
  ownerWritten _ _ _ _ := modifyEntity fun _ h => h
  entered _ _ _ := modifyScope fun _ h => by rwa [Scope.memberNames_enterType]
  removed _ _ _ _ := modifyScope fun _ h => h
  repathed := repathed
  allocated _ _ := allocated
  adopted _ _ _ _ := annotated (.adopt (fun text _ => Policy.allows_free text) _)
  annotated := annotated
  typedefAdded _ _ _ _ := modifyScope fun _ h => h
  usedAdded _ _ _ := modifyScope fun _ h => by rwa [Scope.memberNames_use]

def Runs (run : ScriptRunner) : Prop :=
  ∀ script named m, script.NamesAll named → (∀ id, named id → m.Knows id ∧ id ≠ .root) →
    KeepsNamed m (run script m).2

theorem runs_script {lookup : TypeId → String → Search → ModelM TypeRef}
    (hl : ∀ scope name search m, KeepsNamed m ((lookup scope name search).after m)) :
    Runs (Script.run lookup) := by
  intro script named m hs hnamed
  have hlater : ∀ {m m' : Model}, (∀ id, named id → m.Knows id ∧ id ≠ .root) → m.size ≤ m'.size →
      ∀ id, named id → m'.Knows id ∧ id ≠ .root := fun h hle id hid =>
    (h id hid).imp_left fun hk => hk.trans_le hle
  induction script generalizing m with
  | done result => exact refl m
  | nameOf id next ih =>
    refine ⟨fun hm => ?_⟩
    have hname : named id → (m.node id).name ≠ "" := fun hid =>
      hm.name id (hnamed id hid).1 (hnamed id hid).2
    exact (ih _ m (hs _ hname) hnamed).keeps hm
  | signatureOf type next ih => exact ih _ m (hs _) hnamed
  | lookup scope name search next ih =>
    rw [Script.run_lookup]
    exact (hl scope name search m).trans_of_size_le fun hle => ih _ _ (hs _) (hlater hnamed hle)
  | declare scope kind name next ih =>
    have hstep := coversChanges.declare (N := TypeNode.IsNamed)
      (fun node (hn : TypeNode.ofName name kind.toTypeKind = .ok node) =>
        PlainKind.isNamed_of_ofName hs.1 hn) scope m
    rw [Script.run_declare]
    exact hstep.trans_of_size_le fun hle => ih _ _ (hs.2 _) (hlater hnamed hle)
  | addOperation scope op next ih =>
    have hstep := coversChanges.addOperation (withOperation hs.1) scope m
    rw [Script.run_addOperation]
    exact hstep.trans_of_size_le fun hle => ih _ _ (hs.2 _) (hlater hnamed hle)
  | installHook label answer next _ ih =>
    have hhook : ∀ h : Hook, some (⟨label, answer⟩ : Hook) = some h → h.NamesAll := fun h he =>
      Option.some.inj he ▸ hs.1
    exact (consulted hhook m.journal).trans (ih _ hs.2 hnamed)
  | removeHook next ih => exact (unhooked m.journal).trans (ih _ hs hnamed)

theorem covers (hrun : Runs run) : Covers run KeepsNamed where
  refl := refl
  trans := trans
  asked m scope name := by
    refine ⟨fun hm => ?_⟩
    unfold consultHook
    refine (CoversPlacing.get_bind (R := KeepsNamed) ?_).keeps hm
    split
    · exact refl m
    · next hook hhook =>
      have hnames := hm.hook hook hhook
      set entry : Consultation := ⟨hook.label, m.fullName scope, name⟩
      have hask : KeepsNamed m { m with hook := none, journal := m.journal ++ [entry] } :=
        unhooked _
      have hanswer := hrun (hook.answer scope name) (fun _ => False)
        { m with hook := none, journal := m.journal ++ [entry] } (hnames scope name) nofun
      dsimp only
      generalize run (hook.answer scope name) _ = result at hanswer
      obtain ⟨answer, after⟩ := result
      have hasked := hask.trans hanswer
      have hback : KeepsNamed after { after with hook := after.hook.or (some hook) } := by
        refine ⟨fun ha => (consulted (fun h he => ?_) after.journal).keeps ha⟩
        obtain he | ⟨-, he⟩ := Option.or_eq_some_iff.mp he
        · exact ha.hook h he
        · exact Option.some.inj he ▸ hnames
      refine coversChanges.bind (x := set _) (hasked.trans hback) fun _ m' _ => ?_
      cases answer <;> exact refl m'
  made {m template specializer} arguments hspecializer hfree := by
    refine ⟨fun hm => ?_⟩
    cases hc : (m.node (m.specializationScope template)).isContainer with
    | false =>
      rw [makeSpecialization_refused hc]
      exact (refl m).keeps hm
    | true =>
      have hne : m.specializationName template arguments ≠ "" := fun he => by
        have hmem := m.mem_specializationName template arguments
        simp [he] at hmem
      have hnew : KeepsNamed m (m.withNewClass ⟨template, arguments⟩) := by
        have hadd := coversChanges.addTypeWith
          (TypeNode.isNamed_specialized hne ⟨template, arguments⟩)
          (m.specializationScope template) true m
        rwa [← addType, ModelM.after, addType_newClass hc hfree] at hadd
      have hknown : ∀ id, id = m.next →
          (m.withNewClass ⟨template, arguments⟩).Knows id ∧ id ≠ .root := fun id he => by
        refine ⟨knows_withNewClass_iff.mpr (.inr he), fun hr => ?_⟩
        have hk := knows_of_isContainer hc
        have hsize : m.size = 0 := congrArg TypeId.index (he.symm.trans hr)
        rw [Knows, hsize] at hk
        exact Nat.not_lt_zero _ hk
      have hfill := hrun (specializer.fill m.next arguments) (· = m.next) _
        ((hm.node template).specializer specializer hspecializer m.next arguments) hknown
      rw [ModelM.after, makeSpecialization_eq hc hfree]
      generalize run (specializer.fill m.next arguments) _ = result at hfill
      obtain ⟨ended, finish⟩ := result
      cases ended with
      | ok found => exact (hnew.trans hfill).keeps hm
      | error failure =>
        have hdrop := coversChanges.bind (f := fun _ => (throw failure : ModelM TypeId))
          (coversChanges.detach m.next finish) fun _ m' _ => refl m'
        exact ((hnew.trans hfill).trans hdrop).keeps hm

theorem lookupTypeTo (depth : Nat) (scope : TypeId) (query : String) (search : Search)
    (m : Model) : KeepsNamed m ((Model.lookupTypeTo depth scope query search).after m) := by
  induction depth generalizing scope query search m with
  | zero =>
    have hrun : Runs refuseScript := fun _ _ m _ _ => refl m
    exact (covers hrun).lookupTypeBelow _ scope query search m
  | succ depth ih => exact (covers (runs_script ih)).lookupTypeBelow _ scope query search m

theorem lookupType (scope : TypeId) (query : String) (search : Search) (m : Model) :
    KeepsNamed m ((Model.lookupType scope query search).after m) :=
  lookupTypeTo scriptDepth scope query search m

end KeepsNamed

end Model

end ApiModel
