import ApiModel.Proofs.Namespaces
import ApiModel.Proofs.Specialization

/-!
Declarations that fail leave the model as it was. Missing namespaces are made on the way, but where
one was made nothing is declared yet, so no later check can fail there; and what an attribute needs
besides its own entry is looked up before anything is written.
-/

namespace ApiModel

namespace Model

variable {m : Model} {run : ScriptRunner} {scope : TypeId} {query name : String} {search : Search}

theorem resolveBelow_of_plain {lookupArgument : TypeId → String → Search → ModelM TypeRef}
    (h : '<' ∉ name.toList) (bound : Nat) :
    resolveBelow run lookupArgument scope search (bound + 1) name m =
      .ok (m.findPlain scope name search true) m := by
  rw [resolveBelow, ModelM.bind_apply, ModelM.get_apply]
  cases hf : m.findPlain scope name search true with
  | some found => simp [hf]
  | none => simp [hf, Template.split?_eq_none h, Path.splitAfterTemplate?_eq_none h]

theorem atomic_concludeLookup (hook : m.hook = none) (normal name : String) (markers : List Char)
    (resolved : Option TypeRef) :
    Atomic m m (concludeLookup run scope normal name markers resolved) fun _ m' => m = m' := by
  have hconsult : Atomic m m (consultHook run scope name) fun found m' =>
      found = none ∧ m = m' := by
    unfold consultHook
    apply Atomic.get_bind
    rw [hook]
    exact .pure ⟨rfl, rfl⟩
  unfold concludeLookup
  cases resolved with
  | none =>
    refine hconsult.bind ?_
    rintro _ _ ⟨rfl, rfl⟩
    exact .get_bind (.throw _)
  | some found =>
    dsimp only
    rw [pure_bind]
    apply Atomic.get_bind
    split
    · exact .throw_bind _ _
    · exact .pure rfl

theorem atomic_lookupType_of_plain (hook : m.hook = none)
    (h : '<' ∉ (Name.normalizeQuery query).toList) :
    Atomic m m (lookupType scope query search) fun _ m' => m = m' := by
  obtain ⟨run, hrun⟩ : ∃ run, lookupType scope query search =
      lookupTypeWith run scope query search := by
    rw [lookupType]
    cases scriptDepth with
    | zero => exact ⟨refuseScript, rfl⟩
    | succ depth => exact ⟨Script.run (lookupTypeTo depth), rfl⟩
  rw [hrun, lookupTypeWith]
  by_cases hq : Name.normalizeQuery query = ""
  · rw [lookupTypeBelow_of_empty _ hq]
    exact .throw _
  · cases hsplit : TypeQuery.split (Name.normalizeQuery query) with
    | error failure =>
      rw [lookupTypeBelow_of_error _ hq hsplit]
      exact .throw _
    | ok parts =>
      obtain ⟨name, markers⟩ := parts
      have hplain : '<' ∉ name.toList := fun hm => h ((TypeQuery.split_eq_ok hsplit).subset hm)
      rw [lookupTypeBelow_succ _ hq hsplit]
      refine Atomic.bind (.of_ok (Q := fun _ m' => m = m') (resolveBelow_of_plain hplain _) rfl) ?_
      rintro resolved _ rfl
      exact atomic_concludeLookup hook _ _ _ _

variable {base : Model} {path : String} {node : TypeNode} {checkExists : Bool}

/-- The scope of a declaration is one that was there before, or else it is new and empty. -/
theorem atomic_declarationScope (hc : (m.node scope).isContainer = true)
    (hw : Name.IsWhole path) :
    Atomic m m (declarationScope scope path) fun target m' =>
      m = m' ∧ (m.node target).isContainer = true ∨ m'.scope? target = some {} := by
  unfold declarationScope
  apply Atomic.get_bind
  split
  · exact .pure (.inl ⟨rfl, hc⟩)
  · unfold addNamespace
    refine .ofExcept_bind fun path' hn => ?_
    have hp : ∀ part ∈ Path.components path', Name.IsSingle part := fun part hpart =>
      (Name.isNormal_of_normalize hn).isSingle_of_mem_components hpart
        fun he => hw path' hn (he ▸ hpart)
    rcases walk_cases hp hc with ⟨failure, he⟩ | ⟨target, m', hok, h⟩
    · exact .of_error he
    · exact .of_ok hok (h.imp_left fun ⟨hm, hc⟩ => ⟨hm.symm, hm ▸ hc⟩)

theorem atomic_allocate_attach (hc : (m.node scope).isContainer = true) (node : TypeNode) :
    Atomic base m (do let id ← allocate node; attach scope id; return id) fun _ _ => True := by
  have halloc : Atomic base m (allocate node) fun id m' => id = m.next ∧ m' = m.allocated node :=
    .of_ok rfl ⟨rfl, rfl⟩
  refine halloc.bind ?_
  rintro _ _ ⟨rfl, rfl⟩
  refine (atomic_attach ?_).bind fun _ _ _ => .pure trivial
  rwa [node_allocated_of_ne (ne_next_of_knows (knows_of_isContainer hc))]

theorem atomic_enterType (hc : (m.node scope).isContainer = true) :
    Atomic m m (enterType scope node checkExists) fun _ _ => True := by
  unfold enterType
  apply Atomic.get_bind
  split
  · next existing hex =>
    split
    · exact .pure trivial
    · split
      · exact Atomic.bind (.set (Q := fun _ _ => True) trivial) fun _ _ _ => .pure trivial
      · split
        · exact .throw_bind _ _
        · refine (atomic_detach existing).bind ?_
          rintro - _ ⟨owner, -, rfl⟩
          apply atomic_allocate_attach
          simpa using hc
  · exact atomic_allocate_attach hc node

theorem atomic_enterType_of_empty (hs : m.scope? scope = some {}) :
    Atomic base m (enterType scope node checkExists) fun _ _ => True := by
  unfold enterType
  apply Atomic.get_bind
  have hfree : m.type? scope node.name = none := by rw [type?, hs]; rfl
  simp only [hfree]
  exact atomic_allocate_attach (isContainer_iff.mpr ⟨_, hs⟩) node

theorem atomic_addTypeWith (hw : Name.IsWhole node.entity.scopePath) :
    Atomic m m (addTypeWith scope node checkExists) fun _ _ => True := by
  unfold addTypeWith
  refine (atomic_requireContainer scope _).bind ?_
  rintro - _ ⟨rfl, hc⟩
  refine (atomic_declarationScope hc hw).bind ?_
  rintro target m' (⟨rfl, ht⟩ | hs)
  · exact atomic_enterType ht
  · exact atomic_enterType_of_empty hs

theorem atomic_addTemplate {specializer : Specializer} (hw : Name.IsWhole name) :
    Atomic m m (addTemplate scope name specializer) fun _ _ => True := by
  unfold addTemplate
  refine .ofExcept_bind fun node h => ?_
  obtain ⟨e, he, rfl⟩ := TypeNode.ofName_eq_ok h
  exact atomic_addTypeWith (Entity.ofName_of_isWhole hw he).2

theorem atomic_addConstant {c : Constant} (hw : Name.IsWhole c.entity.scopePath) :
    Atomic m m (addConstant scope c) fun _ _ => True := by
  unfold addConstant
  refine (atomic_requireContainer scope _).bind ?_
  rintro - _ ⟨rfl, hc⟩
  refine (atomic_declarationScope hc hw).bind ?_
  have hset : ∀ base m₁ m₂ : Model, ∀ owned : Constant,
      Atomic base m₁ (do set m₂; return owned) fun _ _ => True := fun base m₁ m₂ owned =>
    Atomic.bind (.set (Q := fun _ _ => True) trivial) fun _ _ _ => .pure trivial
  rintro target m' (⟨rfl, -⟩ | hs)
  · apply Atomic.get_bind
    dsimp only
    split
    · exact .throw_bind _ _
    · exact hset _ _ _ _
  · -- the scope is new, so the constant is not there yet
    apply Atomic.get_bind
    simp only [hs]
    exact hset _ _ _ _

theorem atomic_addTypedef {target : TypeRef} :
    Atomic m m (addTypedef scope name target) fun _ _ => True := by
  unfold addTypedef
  refine (atomic_requireContainer scope _).bind ?_
  rintro - _ ⟨rfl, -⟩
  refine .ofExcept_bind fun name' _ => .get_bind ?_
  dsimp only
  split
  · exact .throw_bind _ _
  · exact .set trivial

theorem atomic_addEnumValue {id : TypeId} {value : Option String} :
    Atomic m m (addEnumValue id name value) fun _ _ => True := by
  unfold addEnumValue
  apply Atomic.get_bind
  split
  · exact .set trivial
  · exact .throw _

theorem atomic_storeOperation (scope : TypeId) (op : Operation) :
    Atomic base m (storeOperation scope op) fun _ _ => True := by
  unfold storeOperation
  apply Atomic.get_bind
  exact Atomic.bind (.set (Q := fun _ _ => True) trivial) fun _ _ _ => .pure trivial

theorem atomic_addOperation {op : Operation} :
    Atomic m m (addOperation scope op) fun _ _ => True := by
  unfold addOperation
  refine (atomic_requireContainer scope _).bind ?_
  rintro - _ ⟨rfl, -⟩
  refine (atomic_memberScope scope _ _).bind ?_
  rintro target _ rfl
  exact atomic_storeOperation target op

theorem atomic_addParent {id parent : TypeId} :
    Atomic m m (addParent id parent) fun _ _ => True := by
  unfold addParent
  apply Atomic.get_bind
  dsimp only
  split
  · exact .throw_bind _ _
  split
  · exact .throw_bind _ _
  split
  · exact .throw_bind _ _
  split
  · exact .throw_bind _ _
  · exact .of_ok rfl trivial

theorem atomic_useNamespace {used : TypeId} :
    Atomic m m (useNamespace scope used) fun _ _ => True := by
  unfold useNamespace
  refine (atomic_requireContainer scope _).bind ?_
  rintro - _ ⟨rfl, -⟩
  refine (atomic_requireContainer used _).bind ?_
  rintro - _ ⟨rfl, -⟩
  exact .modify trivial

theorem atomic_addOperation_of_single {op : Operation} (hc : (m.node scope).isContainer = true)
    (hp : op.entity.scopePath = "") :
    Atomic base m (addOperation scope op) fun _ m' => (m'.node scope).isContainer = true := by
  have hstore : addOperation scope op m = storeOperation scope op m := by
    simp [addOperation, requireContainer, memberScope, ModelM.bind_apply, hc, hp]
  refine .of_ok (hstore.trans rfl) ?_
  show ((m.withOperation scope op).node scope).isContainer = true
  rw [withOperation, isContainer_modifyScope, hc]

theorem getter_eq_ok {a : Attribute} (hn : Name.IsSingle a.name) :
    ∃ getter, Operation.getter a = .ok getter ∧ getter.entity.scopePath = "" := by
  have hname : Name.IsSingle ("get_" ++ a.name) := hn.prepend rfl
  rw [Operation.getter, Operation.ofName, hname.ofName]
  exact ⟨_, rfl, rfl⟩

theorem setter_eq_ok {a : Attribute} (hn : Name.IsSingle a.name) (void : TypeRef) :
    ∃ setter, Operation.setter a void = .ok setter ∧ setter.entity.scopePath = "" := by
  have hname : Name.IsSingle ("set_" ++ a.name) := hn.prepend rfl
  have hvalue : Entity.ofName "value" = .ok { name := "value" } := rfl
  rw [Operation.setter, Operation.ofName, hname.ofName, Parameter.ofName, hvalue]
  exact ⟨_, rfl, rfl⟩

/-- The accessors are built and their types are looked up before the attribute is entered, and to be
added after it they need nothing that could be missing. -/
theorem atomic_addAttribute {a : Attribute} (hook : m.hook = none) (hn : Name.IsSingle a.name) :
    Atomic m m (addAttribute scope a) fun _ _ => True := by
  unfold addAttribute
  refine (atomic_memberScope scope _ _).bind ?_
  rintro target _ rfl
  apply Atomic.get_bind
  dsimp only
  split
  · exact .throw_bind _ _
  next hrecord =>
  split
  · exact .throw_bind _ _
  have hc : ((m.withAttribute target a).node target).isContainer = true := by
    have hr : (m.node target).isRecord = true := by simpa using hrecord
    rw [withAttribute, isContainer_modifyScope, TypeNode.isContainer_eq, hr, Bool.or_true]
  have hset : Atomic m m (set (m.withAttribute target a)) fun _ m' =>
      m' = m.withAttribute target a := .set rfl
  obtain ⟨getter, hg, hgpath⟩ := getter_eq_ok hn
  rw [hg, ModelM.ofExcept_ok, pure_bind]
  split
  · refine (atomic_lookupType_of_plain hook (by decide)).bind ?_
    rintro void _ rfl
    obtain ⟨setter, hs, hspath⟩ := setter_eq_ok hn void
    simp only [hs, ModelM.ofExcept_ok, map_pure, pure_bind]
    refine .get_bind (hset.bind ?_)
    rintro - _ rfl
    refine (atomic_addOperation_of_single hc hgpath).bind fun _ m' hc' => ?_
    exact (atomic_addOperation_of_single hc' hspath).bind fun _ _ _ => .pure trivial
  · simp only [pure_bind]
    refine .get_bind (hset.bind ?_)
    rintro - _ rfl
    exact (atomic_addOperation_of_single hc hgpath).bind fun _ _ _ => .pure trivial

end Model

/-- The operation declares something, under names and paths without empty parts. -/
def Action.Registers : Action → Prop
  | addType _ node _ => Name.IsWhole node.entity.scopePath
  | addTemplate _ name _ => Name.IsWhole name
  | addConstant _ c => Name.IsWhole c.entity.scopePath
  | addAttribute _ a => ∃ name declared, Name.IsWhole name ∧ Entity.ofName name = .ok declared ∧
      declared.name = a.name
  | addTypedef .. | addEnumValue .. | addOperation .. | addParent .. | useNamespace .. => True
  | _ => False

namespace Model

theorem atomic_action (hook : m.hook = none) {action : Action} (hr : action.Registers) :
    Atomic m m action.run fun _ _ => True := by
  have hunit : ∀ {α : Type} {x : ModelM α}, Atomic m m x (fun _ _ => True) →
      Atomic m m (do let _ ← x) fun _ _ => True := fun hx => hx.bind fun _ _ _ => .pure trivial
  cases action with
  | addType => exact hunit (atomic_addTypeWith hr)
  | addTemplate => exact hunit (atomic_addTemplate hr)
  | addTypedef => exact atomic_addTypedef
  | addEnumValue => exact atomic_addEnumValue
  | addOperation => exact hunit atomic_addOperation
  | addAttribute =>
    obtain ⟨name, declared, hw, hd, hname⟩ := hr
    exact hunit (atomic_addAttribute hook (hname ▸ (Entity.ofName_of_isWhole hw hd).1))
  | addConstant => exact hunit (atomic_addConstant hr)
  | addParent => exact atomic_addParent
  | useNamespace => exact atomic_useNamespace
  | _ => cases hr

/-- A declaration that fails leaves a model without a hook as it was. -/
theorem failed_registration (hook : m.hook = none) {action : Action} (hr : action.Registers)
    {failure : ModelError} {m' : Model} (failed : action.run m = .error failure m') : m' = m :=
  (atomic_action hook hr).error failed

/-- A model that has no type `void` refuses an attribute with a setter, and is as before. -/
theorem failed_registration_of_attribute : ∃ m, m.hook = none ∧ ∃ action : Action,
    action.Registers ∧ ∃ failure m', action.run m = .error failure m' ∧ m' = m := by
  have hwhole : Name.IsWhole "x" := fun path hn => by
    obtain rfl : "x" = path := Except.ok.inj hn
    decide
  have hfails :
      (bare.afterAll [.addType .root (declaration .classType "" "A") true]).sizeAfterFailure
        (Action.addAttribute ⟨1⟩
          ⟨{ name := "x", flags := [.readWrite] }, .raw ⟨1⟩⟩).run = some 2 := by decide +kernel
  obtain ⟨failure, m', he, -⟩ := sizeAfterFailure_eq_some hfails
  have hr : (Action.addAttribute ⟨1⟩
      ⟨{ name := "x", flags := [.readWrite] }, .raw ⟨1⟩⟩).Registers := ⟨"x", _, hwhole, rfl, rfl⟩
  exact ⟨_, rfl, _, hr, failure, m', he, failed_registration rfl hr he⟩

end Model

end ApiModel
