import ApiModel.Proofs.Landing
import ApiModel.Proofs.Naming
import ApiModel.Proofs.Registration
import ApiModel.Proofs.Relinking

/-!
What scopes store things under, over the whole history of a model. An operation that gives the empty
name stores something under it if it succeeds, and leaves none behind if it fails; other operations
give no empty names. So the names in a model are empty exactly if an operation with such a name
succeeded, and of which declared texts that can be said is stated along with it.
-/

namespace ApiModel

structure Config.NamesAll (config : Config) : Prop where
  builtinTypes : ∀ name ∈ config.builtinTypes, ¬ Name.IsNameless name
  builtinAliases : ∀ entry ∈ config.builtinAliases, ¬ Name.IsNameless entry.name

namespace Action

def givenName? : Action → Option String
  | addType _ node _ => some node.name
  | addTemplate _ name _ | renameType _ name => (Entity.ofName name).toOption.map Entity.name
  | addOperation _ op => some op.name
  | addAttribute _ a => some a.name
  | addConstant _ c => some c.name
  | _ => none

/-- The scripts and hooks that come with the operation give no empty name, and if it adds an
attribute, the attribute was made from a text. -/
def ScriptsName : Action → Prop
  | addType _ node _ =>
    ∀ specializer, node.specializer? = some specializer → specializer.NamesAll
  | addTemplate _ _ specializer => specializer.NamesAll
  | addAttribute _ a => a.IsNamed
  | setHook hook => hook.NamesAll
  | _ => True

def SucceedsNameless (action : Action) (m : Model) : Prop :=
  action.givenName? = some "" ∧ ∃ m', action.run m = .ok () m'

end Action

theorem Entity.name_ofName_eq_empty_iff {text : String} :
    (ofName text).toOption.map Entity.name = some "" ↔ Name.IsNameless text := by
  unfold Name.IsNameless
  cases ofName text <;> simp [Except.toOption]

theorem Name.IsSingle.not_isNameless {name : String} (h : IsSingle name) : ¬ IsNameless name := by
  rintro ⟨e, he, hname⟩
  rw [h.ofName] at he
  cases he
  exact h.ne_empty hname

theorem String.append_ne_empty {front : String} (hf : front ≠ "") (text : String) :
    front ++ text ≠ "" := fun he => hf (String.append_eq_empty_iff.mp he).1

namespace Model

variable {α β : Type} {p : Policy} {base m m' : Model} {id s scope target : TypeId}
  {node : TypeNode} {steps : List (Model × Action)}

def AllNamed (m : Model) : Prop := ∀ s, "" ∉ (m.members s).names

theorem Named.allNamed (h : m.Named) (ht : m.IsTree) : m.AllNamed := by
  intro s hs
  obtain htype | hmember := List.mem_append.mp hs
  · obtain ⟨⟨name, id⟩, he, rfl⟩ := List.mem_map.mp htype
    have hl : m.type? s "" = some id := by
      rw [type?_eq_get?_members]
      exact OrderedMap.get?_eq_some_iff.mpr he
    obtain ⟨hname, ho⟩ := ht.listed hl
    exact h.name id (knows_of_owner ho) (ht.ne_root_of_owned ho) hname
  · exact (h.node s).members hmember

theorem rootOnly_eq_ok {config : Config} (h : rootOnly config = .ok m) :
    m.size = 1 ∧ m.hook = none ∧ m.config = config := by
  unfold rootOnly at h
  cases hroot : TypeNode.ofName config.rootName PlainKind.namespaceType.toTypeKind with
  | error failure => simp [hroot, bind, Except.bind] at h
  | ok root =>
    simp only [hroot, bind, Except.bind, pure, Except.pure, Except.ok.injEq] at h
    subst h
    exact ⟨rfl, rfl, rfl⟩

theorem named_create {config : Config} (hc : config.NamesAll) (h : create config = .ok m) :
    m.Named := by
  have hfixed : ∀ {name : String}, Name.IsWord name → ¬ Name.IsNameless name :=
    fun hw => hw.isSingle.not_isNameless
  have hbasic : ∀ {name : String} {node : TypeNode}, ¬ Name.IsNameless name →
      TypeNode.ofName name PlainKind.basic.toTypeKind = .ok node → node.IsNamed :=
    PlainKind.isNamed_of_ofName
  obtain ⟨root, hroot, hkeeps⟩ := KeepsNamed.coversChanges.create
    (KeepsNamed.coversChanges.declareBuiltins
      (fun name hname node hn => hbasic (hc.builtinTypes name hname) hn)
      fun entry hentry node hn =>
        have hnode := hbasic (hc.builtinAliases entry hentry) hn
        ⟨⟨hnode.members, hnode.specializer⟩, hnode.name⟩)
    (KeepsNamed.coversChanges.declareStdTypes
      (fun _ => TypeNode.isNamed_of_template (hfixed (by decide)) StdTypes.namesAll_vector)
      (fun _ => TypeNode.isNamed_of_template (hfixed (by decide)) StdTypes.namesAll_map)
      (fun _ => PlainKind.isNamed_of_ofName (hfixed (by decide)))
      (KeepsNamed.lookupType .root · .local)
      fun id sizeType char cString constCString bool void int op hop m scope =>
        KeepsNamed.withOperation (by
          revert op
          simp [StdTypes.stringOperations, StdTypes.constructors, StdTypes.constructor,
            StdTypes.method, StdTypes.swap, Operation.name]) m scope) h
  obtain ⟨hsize, hhook, -⟩ := rootOnly_eq_ok hroot
  refine (hkeeps.keeps ⟨fun id hk hr => ?_, fun id => ?_, fun hook hh => ?_⟩).2
  · rw [Knows, hsize, Nat.lt_one_iff] at hk
    exact absurd (congrArg TypeId.mk hk) hr
  · obtain ⟨-, e, -, hn⟩ | ⟨-, hn⟩ := node_rootOnly hroot id <;>
    · rw [hn]
      refine ⟨List.not_mem_nil, ?_⟩
      rintro specializer ⟨⟩
  · rw [hhook] at hh
    cases hh

theorem KeepsNamed.action {action : Action} (ha : action.Admissible p m)
    (hs : action.ScriptsName) (hn : action.givenName? ≠ some "") :
    KeepsNamed m (action.run.after m) := by
  have hc := KeepsNamed.coversChanges
  cases action with
  | addType scope node checkExists =>
    have hnode : node.IsNamed := by
      refine ⟨⟨?_, hs⟩, fun he => hn (congrArg some he)⟩
      cases hscope : node.scope? with
      | none => exact List.not_mem_nil
      | some a =>
        rw [ha.members a hscope]
        exact List.not_mem_nil
    exact hc.discard (hc.addTypeWith hnode scope checkExists m)
  | addTemplate scope name specializer =>
    have hname : ¬ Name.IsNameless name := fun h => hn (Entity.name_ofName_eq_empty_iff.mpr h)
    exact hc.discard (hc.addTemplate (fun _ => TypeNode.isNamed_of_template hname hs) scope m)
  | addOperation scope op =>
    exact hc.discard
      (hc.addOperation (withOperation fun he => hn (congrArg some he)) scope m)
  | addAttribute scope a =>
    refine hc.discard (hc.addAttribute (lookupType .root "void" .local) (fun getter hg => ?_)
      (fun void setter hset => ?_) (withAttribute fun he => hn (congrArg some he)) scope m)
    · refine withOperation ?_
      rw [(hs.getter hg).1]
      exact String.append_ne_empty (by decide) _
    · refine withOperation ?_
      rw [(hs.setter hset).1]
      exact String.append_ne_empty (by decide) _
  | addConstant scope c =>
    exact hc.discard (hc.addConstant (withConstant fun he => hn (congrArg some he)) scope m)
  | addParent id base => exact hc.addParent (fun _ => modifyScope fun _ h => h) m
  | renameType id name =>
    refine hc.renameType (fun m path hpath => modifyEntity fun _ _ he => hn ?_) m
    exact Entity.name_ofName_eq_empty_iff.mpr (Name.isNameless_iff.mpr ⟨path, hpath, he⟩)
  | lookupType scope query search => exact hc.discard (lookupType scope query search m)
  | setHook hook => exact consulted (fun h he => Option.some.inj he ▸ hs) m.journal
  | clearHook => exact unhooked m.journal
  | _ => exact hc.plainAction ha trivial

theorem not_allNamed_of_type? (h : m.type? s "" = some id) : ¬ m.AllNamed := fun hall => by
  rw [type?_eq_get?_members] at h
  exact hall s (List.mem_append_left _ (OrderedMap.mem_keys_of_get? h))

theorem not_allNamed_of_member (h : "" ∈ (m.members s).memberNames) : ¬ m.AllNamed := fun hall =>
  hall s (List.mem_append_right _ h)

structure StoresNameless (m : Model) (x : ModelM α) : Prop where
  error : ∀ {failure m'}, x m = .error failure m' → KeepsNamed m m'
  ok : ∀ {a m'}, x m = .ok a m' → ¬ m'.AllNamed

namespace StoresNameless

theorem of_ok {x : ModelM α} {a : α} (h : x m = .ok a m') (hn : ¬ m'.AllNamed) :
    StoresNameless m x where
  error he := by
    rw [h] at he
    cases he
  ok h' := by
    rw [h] at h'
    cases h'
    exact hn

theorem of_atomic {x : ModelM α} (h : Atomic m m x fun _ m' => ¬ m'.AllNamed) :
    StoresNameless m x where
  error he := h.error he ▸ .refl m
  ok := h.post

theorem throw_bind (failure : ModelError) (f : α → ModelM β) :
    StoresNameless m ((MonadExcept.throw failure : ModelM α) >>= f) where
  error he := by
    cases he
    exact .refl m
  ok hok := by cases hok

theorem get_bind {f : Model → ModelM β} (h : StoresNameless m (f m)) :
    StoresNameless m (get >>= f) := ⟨fun he => h.error he, fun hok => h.ok hok⟩

theorem bind {x : ModelM α} {f : α → ModelM β} (hx : KeepsNamed m (x.after m))
    (hf : ∀ a m', x m = .ok a m' → StoresNameless m' (f a)) : StoresNameless m (x >>= f) := by
  rw [ModelM.after] at hx
  cases he : x m with
  | ok a m₁ =>
    have hb : (x >>= f) m = f a m₁ := by rw [ModelM.bind_apply, he]
    rw [he] at hx
    exact ⟨fun h => hx.trans ((hf a m₁ he).error (hb ▸ h)), fun h => (hf a m₁ he).ok (hb ▸ h)⟩
  | error failure m₁ =>
    have hb : (x >>= f) m = .error failure m₁ := by rw [ModelM.bind_apply, he]
    rw [he] at hx
    constructor <;> intro _ _ h <;> rw [hb] at h <;> cases h
    exact hx

theorem ofExcept_bind {e : Except ModelError α} {f : α → ModelM β}
    (hf : ∀ a, e = .ok a → StoresNameless m (f a)) :
    StoresNameless m (ModelM.ofExcept e >>= f) := by
  cases e with
  | ok a => exact hf a rfl
  | error failure => exact throw_bind failure f

theorem discard {x : ModelM α} (h : StoresNameless m x) :
    StoresNameless m (do let _ ← x : ModelM Unit) where
  error {failure m'} he := by
    rw [ModelM.bind_apply] at he
    cases hx : x m with
    | ok a m₁ =>
      rw [hx] at he
      cases he
    | error failure m₁ =>
      rw [hx] at he
      cases he
      exact h.error hx
  ok hok := by
    obtain ⟨a, m₁, hx, hpure⟩ := ModelM.bind_eq_ok hok
    cases hpure
    exact h.ok hx

end StoresNameless

theorem storesNameless_allocate_attach (hc : (m.node scope).isContainer = true)
    (hb : node.IsBlank) (hn : node.name = "") :
    StoresNameless m (do let id ← allocate node; attach scope id; return id) := by
  have hc' : ((m.allocated node).node scope).isContainer = true := by
    rwa [node_allocated_of_ne (ne_next_of_knows (knows_of_isContainer hc))]
  have hnew : allocate node m = .ok m.next (m.allocated node) := rfl
  have hl : ((m.allocated node).linked scope m.next).type? scope "" = some m.next := by
    rw [type?_linked_next hc hb, if_pos ⟨rfl, hn.symm⟩]
  refine .of_ok (a := m.next) ?_ (not_allNamed_of_type? hl)
  simp only [ModelM.bind_apply, ModelM.pure_apply, hnew, attach_eq hc']

theorem storesNameless_enterType (hc : (m.node scope).isContainer = true) (hb : node.IsBlank)
    (hn : node.name = "") (checkExists : Bool) :
    StoresNameless m (enterType scope node checkExists) := by
  unfold enterType
  apply StoresNameless.get_bind
  split
  · next existing hex =>
    rw [hn] at hex
    split
    · exact .of_ok rfl (not_allNamed_of_type? hex)
    split
    · have hl : (m.modifyNode existing (·.adopt node)).type? scope "" = some existing := by
        rwa [type?, scope?_of_annotated (f := (·.adopt node))
          (.adopt (fun text _ => Policy.allows_free text) _)]
      exact .of_ok rfl (not_allNamed_of_type? hl)
    split
    · exact .throw_bind _ _
    · refine .bind (KeepsNamed.coversChanges.detach existing m) fun _ m' hok => ?_
      obtain ⟨owner, -, rfl⟩ := (atomic_detach existing).post hok
      exact storesNameless_allocate_attach (by simpa using hc) hb hn
  · exact storesNameless_allocate_attach hc hb hn

theorem storesNameless_addTypeWith (hs : Sound p m) (hb : node.IsBlank) (hn : node.name = "")
    (scope : TypeId) (checkExists : Bool) :
    StoresNameless m (addTypeWith scope node checkExists) := by
  refine .bind (KeepsNamed.coversChanges.requireContainer ..) fun _ m₁ hreq => ?_
  obtain ⟨rfl, hc⟩ := (atomic_requireContainer scope _).post hreq
  refine .bind (KeepsNamed.coversChanges.declarationScope ..) fun target m₂ hscope => ?_
  have htarget := (does_declarationScope hs.free hc (Policy.allows_free _)).post hscope
  exact storesNameless_enterType htarget hb hn _

theorem storesNameless_relink
    (h : m.owner? id = some target ∨ (m.node target).isContainer = true) :
    StoresNameless m (do
      requireFree target "" id
      detach id
      modify fun m => m.modifyNode id (·.mapEntity (·.setName ""))
      attach target id) where
  error he := by
    rw [(atomic_relink h).error he]
    exact .refl m
  ok hok := by
    obtain ⟨owner, hm, hc, he⟩ := relink_eq_ok hok
    rw [he]
    set loose := (m.released owner id).named id ""
    have hc' : ((loose.claimed target id).node target).isContainer = true := by
      simpa [loose, claimed, named] using hc
    have hname : ((loose.claimed target id).node id).name = "" := by
      rw [name_claimed, name_named (by simpa using knows_of_owner hm.1)]
    have hl : (loose.linked target id).type? target "" = some id := by
      rw [linked, (repathed_refreshPaths id _).sameShape.type?_eq, type?_entered hc',
        if_pos ⟨rfl, hname.symm⟩]
    exact not_allNamed_of_type? hl

theorem storesNameless_renameType (hs : Sound p m) {name path : String}
    (hpath : Name.normalize name = .ok path) (hn : Path.baseName path = "") (id : TypeId) :
    StoresNameless m (renameType id name) := by
  rw [renameType, hpath, ModelM.ofExcept_ok, pure_bind]
  dsimp only
  rw [hn]
  split
  · apply StoresNameless.get_bind
    split
    · next owner ho =>
      rw [pure_bind]
      exact storesNameless_relink (.inl ho)
    · exact .get_bind (.throw_bind _ _)
  · refine .bind (KeepsNamed.coversChanges.addNamespace ..) fun target m₁ hadd => ?_
    have hc := (does_addNamespace hs.free hs.isTree.knows_root (Policy.allows_free _)).post hadd
    exact storesNameless_relink (.inr hc)

theorem storesNameless_addOperation {op : Operation} (hn : op.name = "") (scope : TypeId) :
    StoresNameless m (addOperation scope op) := by
  refine .of_atomic ⟨atomic_addOperation.error, fun hok => ?_⟩
  obtain ⟨target, -, hc, rfl, -⟩ := addOperation_eq_ok hok
  refine not_allNamed_of_member (s := target) ?_
  rw [withOperation, members_modifyScope hc]
  exact Scope.mem_memberNames_insertOperation.mpr (.inr hn.symm)

theorem storesNameless_addConstant (hs : Sound p m) {c : Constant} (hn : c.name = "")
    (scope : TypeId) : StoresNameless m (addConstant scope c) := by
  refine .bind (KeepsNamed.coversChanges.requireContainer ..) fun _ m₁ hreq => ?_
  obtain ⟨rfl, hc⟩ := (atomic_requireContainer scope _).post hreq
  refine .bind (KeepsNamed.coversChanges.declarationScope ..) fun target m₂ hscope => ?_
  have htarget := (does_declarationScope hs.free hc (Policy.allows_free _)).post hscope
  apply StoresNameless.get_bind
  dsimp only
  split
  · exact .throw_bind _ _
  · refine .of_ok rfl (not_allNamed_of_member (s := target) ?_)
    show "" ∈ ((m₂.withConstant target c).members target).memberNames
    rw [withConstant, members_modifyScope htarget]
    exact Scope.mem_memberNames_insertConstant.mpr (.inr hn.symm)

structure HasNamelessAttribute (m : Model) (s : TypeId) : Prop where
  isContainer : (m.node s).isContainer = true
  attributes : "" ∈ (m.members s).attributes.keys

theorem HasNamelessAttribute.not_allNamed (h : m.HasNamelessAttribute s) : ¬ m.AllNamed :=
  not_allNamed_of_member (List.mem_append_left _ (List.mem_append_right _ h.attributes))

theorem hasNamelessAttribute_withAttribute (hc : (m.node target).isContainer = true)
    {a : Attribute} (hn : a.name = "") :
    (m.withAttribute target a).HasNamelessAttribute target := by
  refine ⟨by rwa [withAttribute, isContainer_modifyScope], ?_⟩
  rw [withAttribute, members_modifyScope hc]
  exact OrderedMap.mem_keys_insert.mpr (.inr hn.symm)

theorem HasNamelessAttribute.atomic_addOperation (h : m.HasNamelessAttribute target)
    {op : Operation} (hp : op.entity.scopePath = "") :
    Atomic base m (addOperation target op) fun _ m' => m'.HasNamelessAttribute target := by
  obtain ⟨stored, hok⟩ := addOperation_direct h.isContainer hp
  refine .of_ok hok ⟨by rw [withOperation, isContainer_modifyScope, h.isContainer], ?_⟩
  rw [attributes_withOperation]
  exact h.attributes

theorem storesNameless_addAttribute (hs : Sound p m) {a : Attribute} (ha : a.IsNamed)
    (hn : a.name = "") (scope : TypeId) : StoresNameless m (addAttribute scope a) := by
  unfold addAttribute
  refine .bind (KeepsNamed.coversChanges.memberScope ..) fun target m₁ hscope => ?_
  obtain rfl := (atomic_memberScope scope _ _).post hscope
  apply StoresNameless.get_bind
  dsimp only
  split
  · exact .throw_bind _ _
  next hrecord =>
  split
  · exact .throw_bind _ _
  have hc : (m.node target).isContainer = true := by
    have hr : (m.node target).isRecord = true := by simpa using hrecord
    rw [TypeNode.isContainer_eq, hr, Bool.or_true]
  have hset : ∀ m₁ : Model, (m₁.node target).isContainer = true →
      Atomic m₁ m₁ (set (m₁.withAttribute target a)) fun _ m' => m'.HasNamelessAttribute target :=
    fun m₁ hc => .set (hasNamelessAttribute_withAttribute hc hn)
  refine .ofExcept_bind fun getter hg => ?_
  have hgetter := (ha.getter hg).2.1
  split
  · refine .bind (KeepsNamed.lookupType ..) fun void m₁ hvoid => ?_
    have hrun := (does_lookupType _ _ _ hs).run_of_ok hvoid
    have hc₁ : (m₁.node target).isContainer = true :=
      (hrun.sameKind (knows_of_isContainer hc)).isContainer.trans hc
    simp only [map_eq_pure_bind, bind_assoc, pure_bind]
    refine .ofExcept_bind fun setter hset' => .get_bind (.of_atomic ?_)
    refine (hset m₁ hc₁).bind fun _ m₂ h₂ => (h₂.atomic_addOperation hgetter).bind fun _ m₃ h₃ => ?_
    exact (h₃.atomic_addOperation (ha.setter hset').2.1).bind fun _ m₄ h₄ => .pure h₄.not_allNamed
  · simp only [pure_bind]
    refine .get_bind (.of_atomic ?_)
    refine (hset m hc).bind fun _ m₂ h₂ => ?_
    exact (h₂.atomic_addOperation hgetter).bind fun _ m₃ h₃ => .pure h₃.not_allNamed

theorem storesNameless_action {action : Action} (h : Sound p m) (ha : action.Admissible p m)
    (hs : action.ScriptsName) (hn : action.givenName? = some "") :
    StoresNameless m action.run := by
  cases action with
  | addType scope node checkExists =>
    exact (storesNameless_addTypeWith h ha.toIsBlank (Option.some.inj hn) _ _).discard
  | addTemplate scope name specializer =>
    refine StoresNameless.discard (.ofExcept_bind fun node hnode => ?_)
    obtain ⟨e, he, rfl⟩ := TypeNode.ofName_eq_ok hnode
    obtain ⟨e', he', hempty⟩ := Entity.name_ofName_eq_empty_iff.mp hn
    obtain rfl := Except.ok.inj (he.symm.trans he')
    exact storesNameless_addTypeWith h (TypeNode.isBlank_of_template hnode) hempty _ _
  | addOperation scope op =>
    exact (storesNameless_addOperation (Option.some.inj hn) scope).discard
  | addAttribute scope a =>
    exact (storesNameless_addAttribute h hs (Option.some.inj hn) scope).discard
  | addConstant scope c => exact (storesNameless_addConstant h (Option.some.inj hn) scope).discard
  | renameType id name =>
    obtain ⟨path, hnormal, hempty⟩ :=
      Name.isNameless_iff.mp (Entity.name_ofName_eq_empty_iff.mp hn)
    exact storesNameless_renameType h hnormal hempty id
  | _ => cases hn

theorem History.config_eq_step (before : History p steps m) {action : Action}
    (ha : action.Admissible p m) : (action.run.after m).config = m.config :=
  (does_action before.reachable.sound ha).run.config_eq

/-- There is no empty name unless an operation with such a name succeeds. -/
theorem History.named (h : History p steps m) (hconfig : m.config.NamesAll)
    (hscripts : ∀ step ∈ steps, step.2.ScriptsName)
    (hnone : ∀ step ∈ steps, ¬ step.2.SucceedsNameless step.1) : m.Named := by
  induction h with
  | @created config m within new =>
    obtain ⟨root, hroot, hrun⟩ := run_of_create within new
    refine named_create ?_ new
    rwa [hrun.config_eq, (rootOnly_eq_ok hroot).2.2] at hconfig
  | @step steps m before action admissible ih =>
    rw [before.config_eq_step admissible] at hconfig
    obtain ⟨hscripts, hscript⟩ := List.forall_mem_append.mp hscripts
    obtain ⟨hnone, hlast⟩ := List.forall_mem_append.mp hnone
    rw [List.forall_mem_singleton] at hscript hlast
    have hm := ih hconfig hscripts hnone
    by_cases hn : action.givenName? = some ""
    · have hstores := storesNameless_action before.reachable.sound admissible hscript hn
      rw [ModelM.after]
      cases hrun : action.run m with
      | ok result m' => exact absurd ⟨hn, m', hrun⟩ hlast
      | error failure m' => exact ((hstores.error hrun).keeps hm).2
    · exact ((KeepsNamed.action admissible hscript hn).keeps hm).2

/-- Whatever text is declared, and as whatever it is declared, it is refused as no name, or it gives
a name that is empty exactly if the normal form of the text ends in a separator outside of brackets.
In a history in which the basic types have names and scripts give no empty ones, something comes to
be stored under the empty name exactly when an operation that gives this name succeeds. -/
theorem History.allNamed_iff (h : History p steps m) (hconfig : m.config.NamesAll)
    (hscripts : ∀ step ∈ steps, step.2.ScriptsName) :
    (∀ text, Entity.Declares text (Entity.ofName text) ∧
      (∀ kind, Entity.Declares text ((TypeNode.ofName text kind).map TypeNode.entity)) ∧
      Entity.Declares text ((Operation.ofName text).map Operation.entity) ∧
      (∀ type, Entity.Declares text ((Attribute.ofName text type).map Attribute.entity)) ∧
      (∀ type, Entity.Declares text ((Parameter.ofName text type).map Parameter.entity)) ∧
      ∀ value, Entity.Declares text ((Constant.ofName text value).map Constant.entity)) ∧
    ((∀ step ∈ steps, step.1.AllNamed) ∧ m.AllNamed ↔
      ∀ step ∈ steps, ¬ step.2.SucceedsNameless step.1) := by
  refine ⟨fun text => ⟨Entity.declares_ofName text, fun _ => Entity.declares_made fun _ => rfl,
    Entity.declares_made fun _ => rfl, fun _ => Entity.declares_made fun _ => rfl,
    fun _ => Entity.declares_made fun _ => rfl, fun _ => Entity.declares_made fun _ => rfl⟩, ?_⟩
  induction h with
  | created within new =>
    have hm := (History.created within new).named hconfig hscripts (List.forall_mem_nil _)
    have ht := (Reachable.created within new).sound.isTree
    exact iff_of_true ⟨List.forall_mem_nil _, hm.allNamed ht⟩ (List.forall_mem_nil _)
  | @step steps m before action admissible ih =>
    have hafter := (before.step action admissible).named hconfig hscripts
    rw [before.config_eq_step admissible] at hconfig
    obtain ⟨hbefore, hscript⟩ := List.forall_mem_append.mp hscripts
    rw [List.forall_mem_singleton] at hscript
    have hm := ih hconfig hbefore
    constructor
    · rintro ⟨hall, hlast⟩
      obtain ⟨hsteps, hm'⟩ := List.forall_mem_append.mp hall
      rw [List.forall_mem_singleton] at hm'
      refine List.forall_mem_append.mpr ⟨hm.mp ⟨hsteps, hm'⟩, List.forall_mem_singleton.mpr ?_⟩
      rintro ⟨hn, m', hrun⟩
      rw [ModelM.after, hrun] at hlast
      exact (storesNameless_action before.reachable.sound admissible hscript hn).ok hrun hlast
    · intro hnone
      obtain ⟨hsteps, hm'⟩ := hm.mpr (List.forall_mem_append.mp hnone).1
      refine ⟨List.forall_mem_append.mpr ⟨hsteps, List.forall_mem_singleton.mpr hm'⟩, ?_⟩
      exact (hafter hnone).allNamed (before.step action admissible).reachable.sound.isTree

/-- An operation without name is refused, as there is no scope for it, and the class `A` remains the
only thing in the model. -/
theorem allNamed_iff_of_refused : ∃ steps m, History .free steps m ∧ m.config.NamesAll ∧
    (∀ step ∈ steps, step.2.ScriptsName) ∧ (∃ step ∈ steps, step.2.givenName? = some "") ∧
    m.type? .root "A" = some ⟨1⟩ ∧ m.AllNamed := by
  let declared : Action := .addType .root (declaration .classType "" "A") true
  let refused : Action := .addOperation ⟨7⟩ { entity := { name := "" } }
  have h : History .free (bare.stepsOf [declared, refused])
      (bare.afterAll [declared, refused]) := by
    rw [← List.nil_append (bare.stepsOf _)]
    refine history_bare.afterAll fun action ha m => ?_
    simp only [List.mem_cons, List.not_mem_nil, or_false] at ha
    obtain rfl | rfl := ha
    · exact isFresh_declaration nofun nofun
    · exact nofun
  have hconfig : (bare.afterAll [declared, refused]).config.NamesAll := ⟨nofun, nofun⟩
  have hscripts : ∀ step ∈ bare.stepsOf [declared, refused], step.2.ScriptsName := by
    simp only [stepsOf, List.forall_mem_cons]
    refine ⟨?_, trivial, List.forall_mem_nil _⟩
    rintro specializer ⟨⟩
  refine ⟨_, _, h, hconfig, hscripts, ?_, by decide +kernel, ?_⟩
  · exact ⟨_, List.mem_cons_of_mem _ List.mem_cons_self, rfl⟩
  · refine ((h.allNamed_iff hconfig hscripts).2.mpr ?_).2
    simp only [stepsOf, List.forall_mem_cons]
    refine ⟨fun hs => ?_, fun hs => ?_, List.forall_mem_nil _⟩
    · exact absurd hs.1 (by decide)
    · obtain ⟨-, m', hrun⟩ := hs
      cases hrun

/-- The text `a.` declares a class without name in the namespace `a`. -/
theorem class_stored_nameless : ∃ node m, Reachable .free m ∧
    TypeNode.ofName "a." PlainKind.classType.toTypeKind = .ok node ∧ node.name = "" ∧
    m.type? .root "a" = some ⟨1⟩ ∧ m.type? ⟨1⟩ "" = some ⟨2⟩ := by
  let action : Action := .addType .root (declaration .classType "a" "") true
  refine ⟨declaration .classType "a" "", bare.afterAll [action], ?_, by rfl, rfl,
    by decide +kernel, by decide +kernel⟩
  refine reachable_bare.afterAll fun action ha m => ?_
  obtain rfl := List.mem_singleton.mp ha
  exact isFresh_declaration nofun nofun

end Model

end ApiModel
