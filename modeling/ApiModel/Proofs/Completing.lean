import ApiModel.Proofs.Landing

/-!
Forward declarations. A struct or class may be declared without anything else first, and in full
later on. The node that comes of it is the one that a single declaration makes; of the names that
this enters into the scope, the alias is missing.
-/

namespace ApiModel

def Entity.flagged (e : Entity) (flags : List Flag) (version : Nat) : Entity :=
  { e with flags, version }

namespace Scope

theorem used_enterType (a : Scope) (e : Entity) (id : TypeId) :
    (a.enterType e id).used = a.used := by
  unfold enterType
  cases e.aliasName <;> rfl

/-- To enter a type under its alias as well makes no difference: the alias is a name of a type or
leads to this type already. -/
def AliasIdle (a : Scope) (e : Entity) (id : TypeId) : Prop :=
  ∀ text ∈ e.aliasName,
    text = e.name ∨ a.types.contains text = true ∨ a.typeAliases.get? text = some (.raw id)

variable {a : Scope} {e e' : Entity} {id : TypeId}

theorem binding?_enterType_of_not_alias (hname : e'.name = e.name) (hnone : e'.aliasName = none)
    {name : String} (h : name ∉ e.aliasName) :
    (a.enterType e' id).binding? name = (a.enterType e id).binding? name := by
  have hne : e.aliasName ≠ some name := h
  simp only [binding?_enterType, hname, hnone, hne, reduceCtorEq, if_false]

theorem bindings_enterType_eq_iff (hname : e'.name = e.name) (hnone : e'.aliasName = none) :
    (∀ name, (a.enterType e' id).binding? name = (a.enterType e id).binding? name) ↔
      a.AliasIdle e id := by
  -- the alias is the only name that may be bound differently
  have halias : ∀ text, e.aliasName = some text →
      ((a.enterType e' id).binding? text = (a.enterType e id).binding? text ↔
        text = e.name ∨ a.types.contains text = true ∨
          a.typeAliases.get? text = some (.raw id)) := by
    intro text htext
    rw [binding?_enterType, binding?_enterType, hname, hnone, if_neg (c := none = some text) nofun,
      if_pos htext, binding?, OrderedMap.contains]
    by_cases htext : text = e.name
    · simp [htext]
    · cases ht : a.types.get? text <;> simp [htext]
  constructor
  · exact fun h text htext => (halias text htext).mp (h text)
  · intro h name
    by_cases hmem : name ∈ e.aliasName
    · exact (halias name hmem).mpr (h name hmem)
    · exact binding?_enterType_of_not_alias hname hnone hmem

end Scope

namespace TypeNode

variable {node : TypeNode}

/-- A struct or class as it is built before it is declared: it has no members, its kind takes its
flags, and it has no empty alias. -/
structure IsNewRecord (node : TypeNode) : Prop extends node.IsFresh .free where
  isRecord : node.isRecord = true
  flags : node.entityKind.validate node.entity.flags = .ok ()
  alias_ne : node.entity.aliasName ≠ some ""

/-- A node of the same kind and name that says nothing else. -/
def forward (node : TypeNode) : TypeNode where
  entity := { name := node.name, scopePath := node.entity.scopePath }
  kind := node.kind

structure DeclaredAlike (a b : TypeNode) : Prop where
  flags : ∀ flag, flag ∈ b.entity.flags ↔ flag ∈ a.entity.flags
  aliasName : b.entity.aliasName = a.entity.aliasName
  exportName : ∀ libraryPrefix, b.exportName libraryPrefix = a.exportName libraryPrefix
  package : b.package = a.package
  deleteMethod : b.deleteMethod = a.deleteMethod
  deleteMethodName :
    ∀ libraryPrefix, b.deleteMethodName libraryPrefix = a.deleteMethodName libraryPrefix

theorem isFresh_forward (hn : node.IsNewRecord) : node.forward.IsFresh .free where
  owner := rfl
  members := hn.members
  isRoot := rfl
  name := nofun
  scopePath := nofun
  aliasName := nofun
  specialization := rfl
  specializer := hn.specializer

theorem isForward_forward (hn : node.IsNewRecord) (f : Entity → Entity) :
    (node.forward.mapEntity f).isForward = true := by
  have hrecord : (node.forward.mapEntity f).isRecord = true := hn.isRecord
  have hmembers : (node.forward.mapEntity f).scope? = node.scope? := rfl
  rw [isForward, hrecord, hmembers, Bool.true_and]
  cases hs : node.scope? with
  | none => rfl
  | some members =>
    rw [hn.members members hs]
    rfl

theorem addFlagIfValid_eq {flag : Flag} (hcache : node.entity.exportCache = none)
    (hflag : flag ∈ node.entityKind.validFlags) : ∃ list version,
      node.addFlagIfValid flag = node.mapEntity (·.flagged list version) ∧
        ∀ f, f ∈ list ↔ f = flag ∨ f ∈ node.entity.flags := by
  have hvalid : node.entityKind.validate [flag] = .ok () := by
    simp [EntityKind.validate_eq_ok_iff, hflag]
  simp only [addFlagIfValid, addFlag, Entity.addFlag, hvalid, bind, Except.bind, pure, Except.pure]
  by_cases hhas : node.entity.hasFlag flag = true
  · refine ⟨node.entity.flags, node.entity.version, by simp [hhas, mapEntity, Entity.flagged], ?_⟩
    have hmem : flag ∈ node.entity.flags := by simpa [Entity.hasFlag] using hhas
    intro f
    constructor
    · exact .inr
    · rintro (rfl | hf)
      · exact hmem
      · exact hf
  · refine ⟨node.entity.flags ++ [flag], node.entity.version + 1, ?_, by simp [or_comm]⟩
    simp [hhas, mapEntity, Entity.flagged, Entity.touch, hcache]

theorem exists_addFlagsIfValid (node : TypeNode) {flags : List Flag}
    (hcache : node.entity.exportCache = none)
    (hflags : ∀ flag ∈ flags, flag ∈ node.entityKind.validFlags) : ∃ list version,
      flags.foldl addFlagIfValid node = node.mapEntity (·.flagged list version) ∧
        ∀ f, f ∈ list ↔ f ∈ flags ∨ f ∈ node.entity.flags := by
  induction flags generalizing node with
  | nil => exact ⟨node.entity.flags, node.entity.version, rfl, by simp⟩
  | cons flag flags ih =>
    obtain ⟨hflag, hflags⟩ := List.forall_mem_cons.mp hflags
    obtain ⟨list, version, hfirst, hlist⟩ := addFlagIfValid_eq hcache hflag
    obtain ⟨list', version', hrest, hlist'⟩ :=
      ih (node.mapEntity (·.flagged list version)) hcache hflags
    refine ⟨list', version', by rw [List.foldl_cons, hfirst, hrest]; rfl, fun f => ?_⟩
    rw [hlist', entity_mapEntity, Entity.flagged, hlist, List.mem_cons]
    tauto

structure SameExport (a b : Entity) : Prop where
  name : b.name = a.name
  scopePath : b.scopePath = a.scopePath
  exportOverride : b.exportOverride = a.exportOverride
  aliasName : b.aliasName = a.aliasName
  exportCache : b.exportCache = a.exportCache

theorem SameExport.exportName_eq {a b : Entity} (h : SameExport a b) (libraryPrefix : String) :
    b.exportName libraryPrefix = a.exportName libraryPrefix := by
  simp only [Entity.exportName, Entity.freshExportName, Entity.fullName, h.name, h.scopePath,
    h.exportOverride, h.aliasName, h.exportCache]

theorem adopt_forward (hn : node.IsNewRecord) (owner : Option TypeId) (path : String) :
    ∃ e : Entity, (node.forward.mapEntity (·.setOwner owner path)).adopt node =
        { entity := e, kind := node.kind, deleteMethod := node.deleteMethod,
          package := node.package } ∧
      SameExport (node.entity.setOwner owner path) e ∧
      ∀ flag, flag ∈ e.flags ↔ flag ∈ node.entity.flags := by
  obtain ⟨list, version, hflags, hlist⟩ :=
    exists_addFlagsIfValid (node.forward.mapEntity (·.setOwner owner path)) rfl
      (EntityKind.validate_eq_ok_iff.mp hn.flags)
  have hmem : ∀ flag, flag ∈ list ↔ flag ∈ node.entity.flags := by
    simpa [forward, Entity.setOwner, Entity.touch] using hlist
  rw [adopt, hflags]
  cases hexport : node.entity.exportOverride <;> cases halias : node.entity.aliasName
  case none.some text | some.some _ text =>
    have hne : text ≠ "" := fun he => hn.alias_ne (he ▸ halias)
    refine ⟨_, by simp [mapEntity, forward]; rfl, ⟨?_, ?_, ?_, ?_, ?_⟩, fun flag => ?_⟩ <;>
      simp [name, Entity.flagged, Entity.setOwner, Entity.setExportName, Entity.setAlias,
        Entity.touch, hexport, halias, hne, hmem]
  all_goals
    refine ⟨_, by simp [mapEntity, forward]; rfl, ⟨?_, ?_, ?_, ?_, ?_⟩, fun flag => ?_⟩ <;>
      simp [name, Entity.flagged, Entity.setOwner, Entity.setExportName, Entity.touch, hexport,
        halias, hmem]

theorem sameIdentity_adopt (hn : node.IsNewRecord) (owner : Option TypeId) (path : String) :
    (node.mapEntity (·.setOwner owner path)).SameIdentity
      ((node.forward.mapEntity (·.setOwner owner path)).adopt node) := by
  have hforward : (node.mapEntity (·.setOwner owner path)).SameIdentity
      (node.forward.mapEntity (·.setOwner owner path)) :=
    ⟨⟨rfl, rfl, hn.specialization.symm⟩, rfl, rfl, rfl⟩
  have halias : ∀ text, node.entity.aliasName = some text → Policy.free.Allows text :=
    fun _ _ => nofun
  exact hforward.trans (.of_annotated (.adopt halias _))

theorem SameIdentity.mapScopes (f g : Scope → Scope) (node : TypeNode) :
    (node.mapScope f).SameIdentity (node.mapScope g) := by
  constructor <;> try constructor
  all_goals simp

theorem isBasic_eq_false (h : node.isRecord = true) : node.isBasic = false := by
  rw [isRecord, isClass] at h
  rw [isBasic]
  cases hkind : node.entityKind <;> simp_all

theorem declaredAlike_adopt (hn : node.IsNewRecord) (owner : Option TypeId) (path : String) :
    (node.mapEntity (·.setOwner owner path)).DeclaredAlike
      ((node.forward.mapEntity (·.setOwner owner path)).adopt node) := by
  obtain ⟨e, he, hexport, hflags⟩ := adopt_forward hn owner path
  have hrecord : ∀ deleteMethod package, TypeNode.isBasic
      { entity := e, kind := node.kind, deleteMethod, package } = false := fun _ _ =>
    isBasic_eq_false hn.isRecord
  have hbasic : (node.mapEntity (·.setOwner owner path)).isBasic = false :=
    isBasic_eq_false hn.isRecord
  rw [he]
  constructor
  · exact hflags
  · exact hexport.aliasName
  · intro libraryPrefix
    simp only [exportName, hrecord, hbasic, Bool.false_and]
    exact hexport.exportName_eq libraryPrefix
  · rfl
  · rfl
  · intro libraryPrefix
    simp only [deleteMethodName, entity_mapEntity, hexport.exportName_eq]
    rw [name, hexport.name]
    rfl

end TypeNode

namespace Model

variable {p : Policy} {m m' m'' : Model} {s id scope target : TypeId} {node : TypeNode}
  {path name : String} {parts : List String} {search : Search} {follow : Bool}

/-- A walk that led somewhere leads there again, and makes nothing. -/
theorem walk_again (hp : ∀ part ∈ parts, Name.IsSingle part)
    (hc : (m.node scope).isContainer = true)
    (hok : parts.foldlM enterNamespace scope m = .ok target m') (hkeeps : KeepsTypes m' m'') :
    parts.foldlM enterNamespace scope m'' = .ok target m'' := by
  induction parts generalizing scope m with
  | nil =>
    cases hok
    rfl
  | cons part parts ih =>
    obtain ⟨hpart, hparts⟩ := List.forall_mem_cons.mp hp
    rw [List.foldlM_cons] at hok
    obtain ⟨next, m₁, hfirst, hrest⟩ := ModelM.bind_eq_ok hok
    obtain ⟨-, hl, hnext⟩ := enterNamespace_lands hpart hc hfirst
    obtain ⟨hspares, -, -⟩ := walk_lands hparts hnext hrest
    have hlater : KeepsTypes m₁ m'' := (hspares next).toKeepsTypes.trans hkeeps
    have hnext'' : (m''.node next).isContainer = true := by
      rw [(hlater.identity next (knows_of_isContainer hnext)).isContainer, hnext]
    rw [List.foldlM_cons, ModelM.bind_apply,
      enterNamespace_listed hpart.ne_empty (hlater.listed hl) hnext'']
    exact ih hparts hnext hrest

theorem declarationScope_again (ht : m.IsTree) (hc : (m.node s).isContainer = true)
    (hw : Name.IsWhole path) (hok : declarationScope s path m = .ok target m')
    (hkeeps : KeepsTypes m' m'') (ht'' : m''.IsTree) :
    (m'.node target).isContainer = true ∧ KeepsTypes m m' ∧
      declarationScope s path m'' = .ok target m'' := by
  have hagain : (m.scopePath s = m''.scopePath s) →
      ((path = "" || m''.namesScope s path) = (path = "" || m.namesScope s path)) := fun he => by
    rw [namesScope, namesScope, he]
  rw [declarationScope, ModelM.bind_apply, ModelM.get_apply] at hok ⊢
  dsimp only at hok ⊢
  split at hok
  · next hdirect =>
    cases hok
    have hpath := hkeeps.scopePath_eq ht ht'' (knows_of_isContainer hc)
    rw [hagain hpath.symm, if_pos hdirect]
    exact ⟨hc, .refl _, rfl⟩
  · next hdirect =>
    rw [addNamespace] at hok
    obtain ⟨normal, m₁, hn, hwalk⟩ := ModelM.bind_eq_ok hok
    cases hnormal : Name.normalize path with
    | error failure =>
      rw [hnormal] at hn
      cases hn
    | ok normal' =>
      rw [hnormal] at hn
      cases hn
      have hp : ∀ part ∈ Path.components normal, Name.IsSingle part := fun part hpart =>
        (Name.isNormal_of_normalize hnormal).isSingle_of_mem_components hpart
          fun he => hw normal hnormal (he ▸ hpart)
      obtain ⟨hspares, -, htarget⟩ := walk_lands hp hc hwalk
      have hk := (hspares target).toKeepsTypes
      have hpath := (hk.trans hkeeps).scopePath_eq ht ht'' (knows_of_isContainer hc)
      rw [hagain hpath.symm, if_neg hdirect, addNamespace, hnormal]
      exact ⟨htarget, hk, walk_again hp hc hwalk hkeeps⟩

theorem enterType_of_forward (hl : m.type? target node.name = some id)
    (hforward : (m.node id).isForward = true) (hrecord : node.isRecord = true) :
    enterType target node true m = .ok id (m.modifyNode id (·.adopt node)) := by
  have hnamespace : node.isNamespace = false := by
    rw [TypeNode.isRecord, TypeNode.isClass] at hrecord
    rw [TypeNode.isNamespace]
    cases hkind : node.entityKind <;> simp_all
  simp only [enterType, ModelM.bind_apply, ModelM.get_apply, hl, hforward, hrecord, hnamespace,
    Bool.and_false, Bool.and_true, Bool.false_eq_true, if_false, if_true]
  rfl

/-- The models have the same nodes, and each scope has the same names for them. -/
structure SeesAlike (m m' : Model) : Prop where
  size : m'.size = m.size
  identity : ∀ id, (m.node id).SameIdentity (m'.node id)
  types : ∀ s, (m'.members s).types = (m.members s).types
  binding : ∀ s name, (m'.members s).binding? name = (m.members s).binding? name
  used : ∀ s, (m'.members s).used = (m.members s).used

namespace SeesAlike

variable (h : SeesAlike m m')

include h

theorem isNone_scope?_eq (s : TypeId) : (m'.scope? s).isNone = (m.scope? s).isNone := by
  have hc := (h.identity s).isContainer
  rw [TypeNode.isContainer, TypeNode.isContainer, ← scope?, ← scope?] at hc
  rw [← Option.not_isSome, ← Option.not_isSome, hc]

theorem findInside_eq (shorter : TypeId → String → Search → Bool → Option TypeRef) :
    m'.findInside shorter = m.findInside shorter := by
  funext s name search follow
  have hnone := h.isNone_scope?_eq s
  rw [findInside, findInside]
  cases hs : m.scope? s <;> cases hs' : m'.scope? s <;> rw [hs, hs'] at hnone
  case none.some | some.none => cases hnone
  case some.some a b =>
    have hb := h.binding s name
    rw [members_of_scope hs, members_of_scope hs', Scope.binding?, Scope.binding?] at hb
    simp only [← Option.or_assoc, hb]

theorem findInUsed_eq (shorter : TypeId → String → Search → Bool → Option TypeRef) :
    m'.findInUsed shorter = m.findInUsed shorter := by
  funext s name
  rw [findInUsed_eq_members, findInUsed_eq_members, h.used, h.findInside_eq]

theorem findFrom_eq (shorter : TypeId → String → Search → Bool → Option TypeRef) (climbs : Nat) :
    m'.findFrom shorter name climbs s search follow =
      m.findFrom shorter name climbs s search follow := by
  have howner : ∀ s, m'.owner? s = m.owner? s := fun s => (h.identity s).owner
  induction climbs generalizing s search follow with
  | zero =>
    rw [findFrom.eq_def, findFrom.eq_def]
    simp only [h.isNone_scope?_eq, h.findInside_eq, h.findInUsed_eq]
  | succ climbs ih =>
    rw [findFrom.eq_def, findFrom.eq_def]
    dsimp only
    rw [h.isNone_scope?_eq, h.findInside_eq, h.findInUsed_eq, howner]
    cases m.owner? s <;> cases search <;> simp only [ih]

theorem findPlain_eq : m'.findPlain = m.findPlain := by
  have hbelow : ∀ bound, m'.findBelow bound = m.findBelow bound := by
    intro bound
    induction bound with
    | zero => rfl
    | succ bound ih =>
      funext s name search follow
      rw [findBelow, findBelow, ih, h.size, h.findFrom_eq]
  funext s name search follow
  rw [findPlain, findPlain, hbelow]

theorem madeSpecialization?_eq (template : TypeId) (arguments : List TypeRef) :
    m'.madeSpecialization? template arguments = m.madeSpecialization? template arguments := by
  have hname : m'.fullName = m.fullName := funext fun id => (h.identity id).fullName
  have hsignature : m'.signature = m.signature := by
    funext ty
    rw [signature, signature, hname]
  rw [madeSpecialization?, madeSpecialization?, type?_eq_get?_members, type?_eq_get?_members,
    h.types, specializationScope, specializationScope, owner?, (h.identity template).owner,
    specializationName, specializationName, (h.identity template).name, hsignature]
  rfl

theorem findType_eq : m'.findType = m.findType := by
  have htemplate : m'.findTemplate = m.findTemplate := by
    funext s name search
    simp only [findTemplate, h.findPlain_eq, fun id => (h.identity id).isTemplate]
  have hbelow : ∀ bound search s, m'.findTypeBelow search s bound =
      m.findTypeBelow search s bound := by
    intro bound search s
    induction bound with
    | zero => rfl
    | succ bound ih =>
      funext query
      simp only [findTypeBelow, h.findPlain_eq, htemplate, ih, h.madeSpecialization?_eq]
  funext s query search
  rw [findType, findType, hbelow]

end SeesAlike

/-- The scope has a new type that was declared without anything else first and completed then. -/
def withCompleted (m : Model) (scope : TypeId) (node : TypeNode) : Model :=
  ((m.allocated node.forward).linked scope m.next).modifyNode m.next (·.adopt node)

section InTwoSteps

theorem annotated_withCompleted (m : Model) (target : TypeId) (node : TypeNode) :
    TypeNode.Annotated .free (((m.allocated node.forward).linked target m.next).node m.next)
      ((((m.allocated node.forward).linked target m.next).node m.next).adopt node) :=
  have halias : ∀ text, node.entity.aliasName = some text → Policy.free.Allows text :=
    fun _ _ => nofun
  .adopt halias _

theorem members_withCompleted (s : TypeId) : (m.withCompleted target node).members s =
    ((m.allocated node.forward).linked target m.next).members s := by
  rw [withCompleted, members, scope?_of_annotated (annotated_withCompleted m target node),
    ← members]

theorem node_withCompleted_of_ne (hid : id ≠ m.next) : (m.withCompleted target node).node id =
    ((m.allocated node.forward).linked target m.next).node id := by
  rw [withCompleted, node_modifyNode_of_ne _ hid]

variable (hn : node.IsNewRecord) (hc : (m.node target).isContainer = true)

include hn hc

theorem node_withCompleted : (m.withCompleted target node).node m.next =
    (node.forward.mapEntity (·.setOwner (some target) (m.scopePath target))).adopt node := by
  have hknown : ((m.allocated node.forward).linked target m.next).Knows m.next := by
    simp [Knows, next]
  rw [withCompleted, node_modifyNode_self _ hknown,
    node_linked_next hc (TypeNode.isFresh_forward hn).toIsBlank]

theorem binding_withCompleted_of_not_alias (hname : name ∉ node.entity.aliasName) :
    ((m.withCompleted target node).members target).binding? name =
      (((m.allocated node).linked target m.next).members target).binding? name := by
  rw [members_withCompleted, members_linked_next hc hn.toIsBlank,
    members_linked_next hc (TypeNode.isFresh_forward hn).toIsBlank]
  have hkept : (node.forward.entity.setOwner (some target) (m.scopePath target)).name =
      (node.entity.setOwner (some target) (m.scopePath target)).name := rfl
  exact Scope.binding?_enterType_of_not_alias hkept rfl hname

theorem bindings_withCompleted_iff :
    (∀ name, ((m.withCompleted target node).members target).binding? name =
      (((m.allocated node).linked target m.next).members target).binding? name) ↔
      (m.members target).AliasIdle node.entity m.next := by
  simp only [members_withCompleted, members_linked_next hc hn.toIsBlank,
    members_linked_next hc (TypeNode.isFresh_forward hn).toIsBlank]
  exact Scope.bindings_enterType_eq_iff rfl rfl

/-- All names lead to the same types if the alias makes no difference. -/
theorem seesAlike_withCompleted (hidle : (m.members target).AliasIdle node.entity m.next) :
    SeesAlike ((m.allocated node).linked target m.next) (m.withCompleted target node) := by
  have hforward := (TypeNode.isFresh_forward hn).toIsBlank
  constructor
  · simp [withCompleted]
  · intro id
    by_cases hid : id = m.next
    · subst hid
      rw [node_withCompleted hn hc, node_linked_next hc hn.toIsBlank]
      exact TypeNode.sameIdentity_adopt hn _ _
    · rw [node_withCompleted_of_ne hid, node_linked_next_of_ne hc hn.toIsBlank hid,
        node_linked_next_of_ne hc hforward hid]
      split
      · exact .mapScopes _ _ _
      · exact .refl _
  · intro s
    rw [members_withCompleted]
    by_cases hs : s = target
    · rw [hs, members_linked_next hc hn.toIsBlank, members_linked_next hc hforward]
      simp [types_enterType, TypeNode.forward, TypeNode.name, Entity.setOwner, Entity.touch]
    · rw [members_linked_next_of_ne hc hn.toIsBlank hs, members_linked_next_of_ne hc hforward hs]
  · intro s name
    by_cases hs : s = target
    · rw [hs]
      exact (bindings_withCompleted_iff hn hc).mpr hidle name
    · rw [members_withCompleted, members_linked_next_of_ne hc hn.toIsBlank hs,
        members_linked_next_of_ne hc hforward hs]
  · intro s
    rw [members_withCompleted]
    by_cases hs : s = target
    · rw [hs, members_linked_next hc hn.toIsBlank, members_linked_next hc hforward,
        Scope.used_enterType, Scope.used_enterType]
    · rw [members_linked_next_of_ne hc hn.toIsBlank hs, members_linked_next_of_ne hc hforward hs]

end InTwoSteps

section Declaring

variable {m₀ : Model} (hc : (m.node s).isContainer = true) (hn : node.IsNewRecord)
  (hw : Name.IsWhole node.entity.scopePath)
  (hlands : declarationScope s node.entity.scopePath m = .ok target m₀)
  (hfree : m₀.type? target node.name = none)

include hc hn hw hlands hfree

theorem addType_in_two_steps (hs : Sound .free m) :
    (m₀.node target).isContainer = true ∧
      addType s node m = .ok m₀.next ((m₀.allocated node).linked target m₀.next) ∧
      addType s node.forward m = .ok m₀.next ((m₀.allocated node.forward).linked target m₀.next) ∧
      addType s node ((m₀.allocated node.forward).linked target m₀.next) =
        .ok m₀.next (m₀.withCompleted target node) := by
  have hforward := TypeNode.isFresh_forward hn
  have hlands' : declarationScope s node.forward.entity.scopePath m = .ok target m₀ := hlands
  have hfree' : m₀.type? target node.forward.name = none := hfree
  have hs₀ := ((does_declarationScope hs hc nofun).run_of_ok hlands).sound hs
  obtain ⟨hc₀, -, -⟩ :=
    declarationScope_again hs.isTree hc hw hlands (.refl m₀) hs₀.isTree
  have hok := (addType_eq hc hlands').trans (enterType_of_free hc₀ hfree')
  refine ⟨hc₀, (addType_eq hc hlands).trans (enterType_of_free hc₀ hfree), hok, ?_⟩
  -- the second declaration lands in the same scope, and completes what it finds there
  have ht := ((does_addTypeWith hs hforward).run_of_ok hok).sound hs |>.isTree
  have hkeeps := KeepsTypes.linked_next hc₀ hforward.toIsBlank hfree'
  obtain ⟨-, hkeeps₀, hagain⟩ :=
    declarationScope_again hs.isTree hc hw hlands hkeeps ht
  have hc' := (hkeeps₀.trans hkeeps).identity s (knows_of_isContainer hc) |>.isContainer.trans hc
  have hlisted : ((m₀.allocated node.forward).linked target m₀.next).type? target node.name =
      some m₀.next := by
    rw [type?_linked_next hc₀ hforward.toIsBlank, if_pos ⟨rfl, rfl⟩]
  have hempty : (((m₀.allocated node.forward).linked target m₀.next).node
      m₀.next).isForward = true := by
    rw [node_linked_next hc₀ hforward.toIsBlank]
    exact TypeNode.isForward_forward hn _
  exact (addType_eq hc' hagain).trans (enterType_of_forward hlisted hempty hn.isRecord)

/-- A struct or class that is declared without anything else first and then in full becomes the same
node as one that is declared in full at once, where there is no type of its name. All names but the
alias lead to the same types in the scope where it is declared. So does the alias exactly if it makes
no difference there, and then all queries from all scopes find the same. -/
theorem Reachable.completed_alike (h : Reachable p m) :
    ∃ m₁ m₂ m₃, addType s node m = .ok m₀.next m₁ ∧
      addType s node.forward m = .ok m₀.next m₂ ∧ addType s node m₂ = .ok m₀.next m₃ ∧
      (m₁.node m₀.next).DeclaredAlike (m₃.node m₀.next) ∧
      (∀ name, name ∉ node.entity.aliasName →
        (m₃.members target).binding? name = (m₁.members target).binding? name) ∧
      ((∀ name, (m₃.members target).binding? name = (m₁.members target).binding? name) ↔
        (m₀.members target).AliasIdle node.entity m₀.next) ∧
      ((m₀.members target).AliasIdle node.entity m₀.next → m₃.findType = m₁.findType) := by
  obtain ⟨hc₀, h₁, h₂, h₃⟩ := addType_in_two_steps hc hn hw hlands hfree h.sound.free
  refine ⟨_, _, _, h₁, h₂, h₃, ?_, fun name => binding_withCompleted_of_not_alias hn hc₀,
    bindings_withCompleted_iff hn hc₀,
    fun hidle => (seesAlike_withCompleted hn hc₀ hidle).findType_eq⟩
  rw [node_withCompleted hn hc₀, node_linked_next hc₀ hn.toIsBlank]
  exact TypeNode.declaredAlike_adopt hn _ _

end Declaring

def classWithAlias (aliasName : Option String) : TypeNode where
  entity := { name := "A", aliasName, exportOverride := some "a_class", flags := [.simple] }
  kind := .container .classType {}
  deleteMethod := some "a_drop"
  package := some "lib"

theorem isNewRecord_classWithAlias {aliasName : Option String} (h : aliasName ≠ some "") :
    (classWithAlias aliasName).IsNewRecord where
  owner := rfl
  members := fun _ hs => by cases hs; rfl
  isRoot := rfl
  name := nofun
  scopePath := nofun
  aliasName := fun _ _ => nofun
  specialization := rfl
  specializer := nofun
  isRecord := rfl
  flags := rfl
  alias_ne := h

theorem isWhole_empty : Name.IsWhole "" := by
  rintro path h
  cases h

/-- Without an alias the class is the same, and is found alike, after one declaration and after
two. -/
theorem completed_alike_of_class : ∃ m m₁ m₂ m₃, Reachable .free m ∧
    addType .root (classWithAlias none) m = .ok ⟨1⟩ m₁ ∧
    addType .root (classWithAlias none).forward m = .ok ⟨1⟩ m₂ ∧
    addType .root (classWithAlias none) m₂ = .ok ⟨1⟩ m₃ ∧
    (m₁.node ⟨1⟩).DeclaredAlike (m₃.node ⟨1⟩) ∧ m₃.findType = m₁.findType := by
  have hbare := reachable_bare (p := .free)
  have hc : (bare.node .root).isContainer = true := by decide +kernel
  have hnone : (none : Option String) ≠ some "" := nofun
  have hfree : bare.type? .root (classWithAlias none).name = none := by decide +kernel
  obtain ⟨m₁, m₂, m₃, h₁, h₂, h₃, hsame, -, -, hfind⟩ :=
    hbare.completed_alike hc (isNewRecord_classWithAlias hnone) isWhole_empty rfl hfree
  refine ⟨bare, m₁, m₂, m₃, hbare, h₁, h₂, h₃, hsame, hfind fun text htext => ?_⟩
  cases htext

/-- The alias of a class that is declared at once leads to it, that of one that is completed does
not. -/
theorem alias_missed_of_completed : ∃ m₁ m₂ m₃, Reachable .free bare ∧
    addType .root (classWithAlias (some "B")) bare = .ok ⟨1⟩ m₁ ∧
    addType .root (classWithAlias (some "B")).forward bare = .ok ⟨1⟩ m₂ ∧
    addType .root (classWithAlias (some "B")) m₂ = .ok ⟨1⟩ m₃ ∧
    m₁.findType .root "B" .owners = some (.raw ⟨1⟩) ∧ m₃.findType .root "B" .owners = none := by
  have hbare := reachable_bare (p := .free)
  have hc : (bare.node .root).isContainer = true := by decide +kernel
  have hsome : some "B" ≠ some "" := by decide
  have hfree : bare.type? .root (classWithAlias (some "B")).name = none := by decide +kernel
  obtain ⟨-, h₁, h₂, h₃⟩ := addType_in_two_steps hc (isNewRecord_classWithAlias hsome)
    isWhole_empty rfl hfree hbare.sound
  exact ⟨_, _, _, hbare, h₁, h₂, h₃, by decide +kernel, by decide +kernel⟩

end Model

end ApiModel
