import ApiModel.Proofs.Making
import ApiModel.Proofs.Writing

/-!
What holds between models before and behind single writes holds before and behind whatever callers
do, lookups with their scripts and hooks included. Names, parents and attributes stand apart: they
are written by one operation each, so that a relation need not hold for those writes to hold for all
other operations.
-/

namespace ApiModel

theorem TypeNode.Annotated.toFree {p : Policy} {a b : TypeNode} (h : a.Annotated p b) :
    a.Annotated .free b :=
  { h with aliasName := h.aliasName.imp_right fun _ _ _ => nofun }

theorem TypeNode.isBlank_of_template {name : String} {specializer : Specializer} {node : TypeNode}
    (h : ofName name (.template specializer) = .ok node) : node.IsBlank := by
  obtain ⟨e, he, rfl⟩ := ofName_eq_ok h
  exact ⟨(Entity.unattached_of_ofName he).1, nofun, rfl⟩

theorem TypeNode.IsBlank.exported {node : TypeNode} (h : node.IsBlank) (text : String) :
    (node.mapEntity (·.setExportName text)).IsBlank := ⟨h.owner, h.members, h.isRoot⟩

theorem ModelM.rel_of_ok {α : Type} {R : Model → Model → Prop} {x : ModelM α} {a : α}
    {m m' : Model} (h : R m (x.after m)) (hok : x m = .ok a m') : R m m' := by
  rwa [after, hok] at h

/-- The operation gives no name, derives no class, and has nothing to do with lookups. -/
def Action.IsPlain : Action → Prop
  | addNamespace .. | addTypedef .. | addEnumValue .. | useNamespace .. | deleteType ..
  | moveType .. | annotate .. => True
  | _ => False

namespace Model

variable {α β : Type} {p : Policy} {N : TypeNode → Prop} {R : Model → Model → Prop}
  {m m' : Model} {scope id : TypeId} {run : ScriptRunner}

/-- Callers declare blank nodes only. -/
theorem isBlank_of_admissible {action : Action} (ha : action.Admissible p m) (scope : TypeId)
    (node : TypeNode) (checkExists : Bool) (he : action = .addType scope node checkExists) :
    node.IsBlank := by
  subst he
  exact ha.toIsBlank

/-- The relation holds between the models before and behind each write that changes annotations, or
adds a typedef or a used namespace. -/
structure CoversChanges (N : TypeNode → Prop) (R : Model → Model → Prop) : Prop extends
    CoversPlacing N R where
  annotated : ∀ {m : Model} {id f}, (m.node id).Annotated .free (f (m.node id)) →
    R m (m.modifyNode id f)
  typedefAdded : ∀ m scope name target, R m (m.withTypedef scope name target)
  usedAdded : ∀ m scope used, R m (m.withUsed scope used)

/-- It also holds there for each other write that is made by more than one operation, and each that
adds a constant. Nodes that operations make are in `N`. -/
structure CoversEdits (N : TypeNode → Prop) (R : Model → Model → Prop) : Prop extends
    CoversWrites N R, CoversChanges N R where
  template : ∀ {name : String} {specializer : Specializer} {node : TypeNode},
    TypeNode.ofName name (.template specializer) = .ok node → N node
  exported : ∀ {node : TypeNode} (text : String), N node →
    N (node.mapEntity (·.setExportName text))
  specialized : ∀ (m : Model) (template : TypeId) (arguments : List TypeRef),
    N (.specialized (m.specializationName template arguments) { template, arguments })
  constantAdded : ∀ m scope c, R m (m.withConstant scope c)
  consulted : ∀ (m : Model) hook journal, R m { m with hook, journal }

namespace CoversChanges

theorem forM (h : CoversChanges N R) {f : α → ModelM PUnit} {xs : List α}
    (hf : ∀ x ∈ xs, ∀ m, R m ((f x).after m)) (m : Model) : R m ((xs.forM f).after m) := by
  induction xs generalizing m with
  | nil => exact h.refl m
  | cons x xs ih =>
    obtain ⟨hfirst, hrest⟩ := List.forall_mem_cons.mp hf
    exact h.bind (hfirst m) fun _ m' _ => ih hrest m'

theorem requireFree (h : CoversChanges N R) (scope : TypeId) (name : String) (id : TypeId)
    (m : Model) : R m ((Model.requireFree scope name id).after m) := by
  unfold Model.requireFree
  apply CoversPlacing.get_bind
  split <;> exact h.refl m

theorem addTemplate (h : CoversChanges N R) {name : String} {specializer : Specializer}
    (hn : ∀ node, TypeNode.ofName name (.template specializer) = .ok node → N node)
    (scope : TypeId) (m : Model) : R m ((Model.addTemplate scope name specializer).after m) :=
  h.ofExcept_bind fun node he => h.addTypeWith (hn node he) scope true m

theorem addTypedef (h : CoversChanges N R) (scope : TypeId) (name : String) (target : TypeRef)
    (m : Model) : R m ((Model.addTypedef scope name target).after m) := by
  refine h.bind (h.requireContainer ..) fun _ m₁ _ => h.ofExcept_bind fun name' _ => ?_
  apply CoversPlacing.get_bind
  split
  · exact h.refl m₁
  · exact h.typedefAdded m₁ scope name' target

theorem addEnumValue (h : CoversChanges N R) (id : TypeId) (name : String) (value : Option String)
    (m : Model) : R m ((Model.addEnumValue id name value).after m) := by
  unfold Model.addEnumValue
  apply CoversPlacing.get_bind
  split
  · next values hvalues =>
    refine h.annotated ?_
    have hk : ∃ values, (m.node id).kind = .enumeration values := by
      cases hk : (m.node id).kind <;> simp_all [TypeNode.values?]
    obtain ⟨values', hk⟩ := hk
    refine ⟨⟨?_, ?_, rfl⟩, rfl, rfl, rfl, rfl, ?_, .inl rfl⟩
    · simp [TypeNode.entityKind, hk]
    · simp [TypeNode.specializer?, hk]
    · simp [TypeNode.scope?, hk]
  · exact h.refl m

theorem addConstant (h : CoversChanges N R) {c : Constant}
    (hwrite : ∀ m scope, R m (m.withConstant scope c)) (scope : TypeId) (m : Model) :
    R m ((Model.addConstant scope c).after m) := by
  refine h.bind (h.requireContainer ..) fun _ m₁ _ => ?_
  refine h.bind (h.declarationScope scope _ m₁) fun target m₂ _ => ?_
  apply CoversPlacing.get_bind
  dsimp only
  split
  · exact h.refl m₂
  · exact hwrite m₂ target

theorem addParent (h : CoversChanges N R) {base : TypeId} (hwrite : ∀ m, R m (m.withParent id base))
    (m : Model) : R m ((Model.addParent id base).after m) := by
  unfold Model.addParent
  apply CoversPlacing.get_bind
  dsimp only
  split
  · exact h.refl m
  split
  · exact h.refl m
  split
  · exact h.refl m
  split
  · exact h.refl m
  · let unchecked := m.modifyNode base fun node => { node with checkType := false }
    have hsame : ∀ node : TypeNode, node.Annotated .free { node with checkType := false } :=
      fun _ => ⟨⟨rfl, rfl, rfl⟩, rfl, rfl, rfl, rfl, rfl, .inl rfl⟩
    have hparent := hwrite unchecked
    have hname : (unchecked.node base).name = (m.node base).name :=
      (rel_modifyNode (R := TypeNode.Annotated .free) .refl (hsame _) base).name
    rw [withParent, hname] at hparent
    exact h.trans (h.annotated (hsame _)) hparent

theorem useNamespace (h : CoversChanges N R) (scope used : TypeId) (m : Model) :
    R m ((Model.useNamespace scope used).after m) :=
  h.bind (h.requireContainer ..) fun _ m₁ _ =>
    h.bind (h.requireContainer used _ m₁) fun _ m₂ _ => h.usedAdded m₂ scope used

theorem renameType (h : CoversChanges N R) {name : String}
    (hwrite : ∀ m path, Name.normalize name = .ok path → R m (m.named id (Path.baseName path)))
    (m : Model) : R m ((Model.renameType id name).after m) := by
  refine h.ofExcept_bind fun path hn => ?_
  have hrelink : ∀ target m, R m ((do
      Model.requireFree target (Path.baseName path) id
      Model.detach id
      modify fun m => m.modifyNode id (·.mapEntity (·.setName (Path.baseName path)))
      Model.attach target id : ModelM Unit).after m) := fun target m =>
    h.bind (h.requireFree ..) fun _ m₁ _ => h.bind (h.detach id m₁) fun _ m₂ _ =>
      h.bind (x := modify _) (hwrite m₂ path hn) fun _ m₃ _ => h.attach target id m₃
  dsimp only
  split
  · apply CoversPlacing.get_bind
    split
    · exact hrelink _ m
    · exact h.refl m
  · exact h.bind (h.addNamespace ..) fun target m₁ _ => hrelink target m₁

theorem moveType (h : CoversChanges N R) (id scope : TypeId) (m : Model) :
    R m ((Model.moveType id scope).after m) := by
  refine h.bind (h.requireContainer ..) fun _ m₁ _ => ?_
  apply CoversPlacing.get_bind
  split
  · exact h.refl m₁
  · exact h.bind (h.requireFree ..) fun _ m₂ _ => h.bind (h.detach id m₂) fun _ m₃ _ =>
      h.attach scope id m₃

theorem addAttribute (h : CoversChanges N R) {a : Attribute}
    (hlookup : ∀ m, R m ((Model.lookupType .root "void" .local).after m))
    (hgetter : ∀ getter, Operation.getter a = .ok getter →
      ∀ m scope, R m (m.withOperation scope getter))
    (hsetter : ∀ void setter, Operation.setter a void = .ok setter →
      ∀ m scope, R m (m.withOperation scope setter))
    (hwrite : ∀ m scope, R m (m.withAttribute scope a)) (scope : TypeId) (m : Model) :
    R m ((Model.addAttribute scope a).after m) := by
  unfold Model.addAttribute
  refine h.bind (h.memberScope ..) fun target m _ => ?_
  apply CoversPlacing.get_bind
  dsimp only
  split
  · exact h.refl m
  split
  · exact h.refl m
  refine h.ofExcept_bind fun getter hg => ?_
  split
  · refine h.bind (hlookup m) fun void m₁ _ => ?_
    simp only [map_eq_pure_bind, bind_assoc, pure_bind]
    refine h.ofExcept_bind fun setter hs => ?_
    apply CoversPlacing.get_bind
    refine h.bind (x := set _) (hwrite m₁ target) fun _ m₂ _ => ?_
    exact h.bind (h.addOperation (hgetter getter hg) target m₂) fun _ m₃ _ =>
      h.bind (h.addOperation (hsetter void setter hs) target m₃) fun _ m₄ _ => h.refl m₄
  · simp only [pure_bind]
    apply CoversPlacing.get_bind
    refine h.bind (x := set _) (hwrite m target) fun _ m₂ _ => ?_
    exact h.bind (h.addOperation (hgetter getter hg) target m₂) fun _ m₃ _ => h.refl m₃

theorem plainAction (h : CoversChanges N R) {action : Action} (ha : action.Admissible p m)
    (hplain : action.IsPlain) : R m (action.run.after m) := by
  cases action with
  | addNamespace scope path => exact h.discard (h.addNamespace scope path m)
  | addTypedef scope name target => exact h.addTypedef scope name target m
  | addEnumValue id name value => exact h.addEnumValue id name value m
  | useNamespace scope used => exact h.useNamespace scope used m
  | deleteType id => exact h.detach id m
  | moveType id scope => exact h.moveType id scope m
  | annotate id setting =>
    refine CoversPlacing.get_bind (h.ofExcept_bind fun node hn => ?_)
    exact h.annotated (Setting.annotated ha hn).toFree
  | _ => exact hplain.elim

theorem declareBuiltins (h : CoversChanges N R) {config : Config}
    (hplain : ∀ name ∈ config.builtinTypes, ∀ node, TypeNode.ofName name .basic = .ok node → N node)
    (hexported : ∀ entry ∈ config.builtinAliases, ∀ node,
      TypeNode.ofName entry.name .basic = .ok node →
        N (node.mapEntity (·.setExportName entry.exportName))) (m : Model) :
    R m ((Model.declareBuiltins config).after m) := by
  refine h.bind (h.forM (fun name hname m => h.ofExcept_bind fun node hn => ?_) m) fun _ m' _ =>
    h.forM (fun entry hentry m => h.ofExcept_bind fun node hn => ?_) m'
  · exact h.bind (h.addTypeWith (hplain name hname node hn) _ _ m) fun _ m' _ => h.refl m'
  · exact h.bind (h.addTypeWith (hexported entry hentry node hn) _ _ m) fun _ m' _ => h.refl m'

theorem declareStdTypes (h : CoversChanges N R)
    (hvector : ∀ node, TypeNode.ofName "vector" (.template StdTypes.vector) = .ok node → N node)
    (hmap : ∀ node, TypeNode.ofName "map" (.template StdTypes.map) = .ok node → N node)
    (hstring : ∀ node, TypeNode.ofName "string" PlainKind.classType.toTypeKind = .ok node → N node)
    (hlookup : ∀ name m, R m ((Model.lookupType .root name .local).after m))
    (hoperation : ∀ id sizeType char cString constCString bool void int,
      ∀ op ∈ StdTypes.stringOperations id sizeType char cString constCString bool void int,
        ∀ m scope, R m (m.withOperation scope op)) (m : Model) :
    R m (StdTypes.declare.after m) := by
  unfold StdTypes.declare
  refine h.bind (h.addNamespace ..) fun std m _ => ?_
  refine h.bind (h.addTemplate hvector ..) fun _ m _ => ?_
  refine h.bind (h.addTemplate hmap ..) fun _ m _ => ?_
  refine h.bind (h.addTypeWith (hstring _ rfl) _ _ m) fun string m _ => ?_
  iterate 7 refine h.bind (hlookup ..) fun _ m _ => ?_
  refine h.forM (fun op hop m => ?_) m
  exact h.bind (h.addOperation (hoperation _ _ _ _ _ _ _ _ op hop) _ m) fun _ m' _ => h.refl m'

theorem create (h : CoversChanges N R) {config : Config}
    (hbuiltins : ∀ m, R m ((Model.declareBuiltins config).after m))
    (hstd : ∀ m, R m (StdTypes.declare.after m)) (hm : Model.create config = .ok m) :
    ∃ root, rootOnly config = .ok root ∧ R root m := by
  unfold Model.create at hm
  cases hroot : rootOnly config with
  | error failure => simp [hroot, Bind.bind, Except.bind] at hm
  | ok root =>
    have hdeclared : R root ((do
        Model.declareBuiltins config
        if config.stdTypes then StdTypes.declare : ModelM Unit).after root) := by
      refine h.bind (hbuiltins root) fun _ m _ => ?_
      split
      · exact hstd m
      · exact h.refl m
    rw [hroot] at hm
    dsimp only [Bind.bind, Except.bind] at hm
    split at hm
    · next hok =>
      cases hm
      exact ⟨root, rfl, ModelM.rel_of_ok hdeclared hok⟩
    · cases hm

end CoversChanges

namespace CoversEdits

theorem addTemplate (h : CoversEdits N R) (scope : TypeId) (name : String)
    (specializer : Specializer) (m : Model) :
    R m ((Model.addTemplate scope name specializer).after m) :=
  h.toCoversChanges.addTemplate (fun _ => h.template) scope m

theorem addConstant (h : CoversEdits N R) (scope : TypeId) (c : Constant) (m : Model) :
    R m ((Model.addConstant scope c).after m) :=
  h.toCoversChanges.addConstant (fun m scope => h.constantAdded m scope c) scope m

theorem script (h : CoversEdits N R) {lookup : TypeId → String → Search → ModelM TypeRef}
    (hl : ∀ scope name search m, R m ((lookup scope name search).after m))
    (script : Script) (m : Model) : R m (script.run lookup m).2 := by
  induction script generalizing m with
  | done result => exact h.refl m
  | nameOf id next ih => exact ih _ m
  | signatureOf type next ih => exact ih _ m
  | lookup scope name search next ih =>
    rw [Script.run_lookup]
    exact h.trans (hl scope name search m) (ih _ _)
  | declare scope kind name next ih =>
    rw [Script.run_declare]
    exact h.trans (h.declare scope kind name m) (ih _ _)
  | addOperation scope op next ih =>
    rw [Script.run_addOperation]
    exact h.trans (h.addOperation scope op m) (ih _ _)
  | installHook label answer next _ ih => exact h.trans (h.consulted m _ _) (ih _)
  | removeHook next ih => exact h.trans (h.consulted m _ _) (ih _)

/-- Lookups that run scripts in that way are made of such steps. -/
theorem covers (h : CoversEdits N R) (hrun : ∀ script m, R m (run script m).2) : Covers run R where
  refl := h.refl
  trans := h.trans
  asked m scope name := by
    unfold consultHook
    apply CoversPlacing.get_bind
    split
    · exact h.refl m
    · next hook hhook =>
      set entry : Consultation := ⟨hook.label, m.fullName scope, name⟩
      have hanswer := hrun (hook.answer scope name)
        { m with hook := none, journal := m.journal ++ [entry] }
      dsimp only
      generalize run (hook.answer scope name) _ = result at hanswer
      obtain ⟨answer, after⟩ := result
      have hasked := h.trans (h.consulted m none (m.journal ++ [entry])) hanswer
      refine h.bind (x := set _) (h.trans hasked (h.consulted after _ _)) fun _ m' _ => ?_
      cases answer <;> exact h.refl m'
  made {m template specializer} arguments hspecializer _ := by
    unfold makeSpecialization
    apply CoversPlacing.get_bind
    refine h.bind (h.addTypeWith (h.specialized m template arguments) _ true m) fun id m₁ _ => ?_
    apply CoversPlacing.get_bind
    have hfill := hrun (specializer.fill id arguments) m₁
    dsimp only
    generalize run (specializer.fill id arguments) m₁ = result at hfill
    obtain ⟨ended, after⟩ := result
    refine h.bind (x := set after) hfill fun _ m₂ _ => ?_
    cases ended with
    | ok found => exact h.refl m₂
    | error failure => exact h.bind (h.detach id m₂) fun _ m₃ _ => h.refl m₃

theorem lookupTypeTo (h : CoversEdits N R) (depth : Nat) (scope : TypeId) (query : String)
    (search : Search) (m : Model) :
    R m ((Model.lookupTypeTo depth scope query search).after m) := by
  induction depth generalizing scope query search m with
  | zero =>
    have hrun : ∀ script m, R m (refuseScript script m).2 := fun _ m => h.refl m
    exact (h.covers hrun).lookupTypeBelow _ scope query search m
  | succ depth ih => exact (h.covers (h.script ih)).lookupTypeBelow _ scope query search m

theorem lookupType (h : CoversEdits N R) (scope : TypeId) (query : String) (search : Search)
    (m : Model) : R m ((Model.lookupType scope query search).after m) :=
  h.lookupTypeTo scriptDepth scope query search m

theorem addAttribute (h : CoversEdits N R) {a : Attribute}
    (hwrite : ∀ m scope, R m (m.withAttribute scope a)) (scope : TypeId) (m : Model) :
    R m ((Model.addAttribute scope a).after m) :=
  h.toCoversChanges.addAttribute (h.lookupType .root "void" .local)
    (fun getter _ m scope => h.operationAdded m scope getter)
    (fun _ setter _ m scope => h.operationAdded m scope setter) hwrite scope m

theorem action (h : CoversEdits N R) {action : Action} (ha : action.Admissible p m)
    (hdeclared : ∀ scope node checkExists, action = .addType scope node checkExists → N node)
    (hattribute : ∀ scope a, action = .addAttribute scope a →
      ∀ m target, R m (m.withAttribute target a))
    (hparent : ∀ id base, action = .addParent id base → ∀ m, R m (m.withParent id base))
    (hname : ∀ id name, action = .renameType id name → ∀ m path, Name.normalize name = .ok path →
      R m (m.named id (Path.baseName path))) :
    R m (action.run.after m) := by
  cases action with
  | addType scope node checkExists =>
    exact h.discard (h.addTypeWith (hdeclared scope node checkExists rfl) scope checkExists m)
  | addTemplate scope name specializer => exact h.discard (h.addTemplate scope name specializer m)
  | addOperation scope op => exact h.discard (h.addOperation scope op m)
  | addAttribute scope a => exact h.discard (h.addAttribute (hattribute scope a rfl) scope m)
  | addConstant scope c => exact h.discard (h.addConstant scope c m)
  | addParent id base => exact h.addParent (hparent id base rfl) m
  | renameType id name => exact h.renameType (hname id name rfl) m
  | lookupType scope query search => exact h.discard (h.lookupType scope query search m)
  | setHook hook => exact h.consulted _ _ _
  | clearHook => exact h.consulted _ _ _
  | _ => exact h.toCoversChanges.plainAction ha trivial

theorem declareBuiltins (h : CoversEdits N R) (config : Config) (m : Model) :
    R m ((Model.declareBuiltins config).after m) := by
  have hbasic : ∀ {name node},
      TypeNode.ofName name PlainKind.basic.toTypeKind = .ok node → N node := h.declared
  exact h.toCoversChanges.declareBuiltins (fun _ _ _ hn => hbasic hn)
    (fun _ _ _ hn => h.exported _ (hbasic hn)) m

theorem create (h : CoversEdits N R) {config : Config} (hm : Model.create config = .ok m) :
    ∃ root, rootOnly config = .ok root ∧ R root m :=
  h.toCoversChanges.create (h.declareBuiltins config)
    (h.toCoversChanges.declareStdTypes (fun _ => h.template) (fun _ => h.template)
      (fun _ => h.declared) (h.lookupType .root · .local)
      fun _ _ _ _ _ _ _ _ op _ m scope => h.operationAdded m scope op) hm

end CoversEdits

end Model

end ApiModel
