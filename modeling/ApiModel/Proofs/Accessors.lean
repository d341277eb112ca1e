import ApiModel.Proofs.Identifiers
import ApiModel.Proofs.Retaining

/-!
Attributes and their accessors. The operation that reads an attribute, and the one that writes it,
are added along with it to the same scope. They stay there, and classes inherit them along with the
attribute, though attributes are inherited by name and operations by signature.
-/

namespace ApiModel

open Relation

namespace Attribute

variable {a b : Attribute}

def IsNamed (a : Attribute) : Prop :=
  ∃ text made, Attribute.ofName text a.type = .ok made ∧ made.name = a.name

theorem SameData.isNamed (h : a.SameData b) (hn : b.IsNamed) : a.IsNamed := by
  obtain ⟨text, made, hmade, hname⟩ := hn
  exact ⟨text, made, h.type ▸ hmade, hname.trans h.name⟩

theorem IsNamed.name_cases (h : a.IsNamed) : a.name = "" ∨ Name.IsSingle a.name := by
  obtain ⟨text, made, hmade, hname⟩ := h
  unfold Attribute.ofName at hmade
  cases he : Entity.ofName text with
  | error failure => simp [he, bind, Except.bind] at hmade
  | ok e =>
    simp only [he, bind, Except.bind, pure, Except.pure, Except.ok.injEq] at hmade
    obtain ⟨path, hpath, rfl⟩ := Entity.ofName_eq_ok he
    rw [← hname, ← hmade]
    exact or_iff_not_imp_left.mpr ((Name.isNormal_of_normalize hpath).isSingle_of_mem_components
      (Path.baseName_mem_components path))

theorem IsNamed.isSingle_prepend (h : a.IsNamed) {front : String} (hfront : Name.IsSingle front)
    (hplain : (front.toList.all fun c =>
      !Text.isBlank c && !(['.', ':', '<', '>'].contains c)) = true) :
    Name.IsSingle (front ++ a.name) := by
  obtain he | hsingle := h.name_cases
  · rwa [he, String.append_empty]
  · exact hsingle.prepend hplain

theorem IsNamed.getter (h : a.IsNamed) {getter : Operation}
    (hg : Operation.getter a = .ok getter) :
    getter.name = "get_" ++ a.name ∧ getter.entity.scopePath = "" ∧ getter.parameters = [] := by
  have hfront : Name.IsWord "get_" := by decide
  rw [Operation.getter, Operation.ofName, (h.isSingle_prepend hfront.isSingle rfl).ofName] at hg
  cases hg
  exact ⟨rfl, rfl, rfl⟩

theorem IsNamed.setter (h : a.IsNamed) {void : TypeRef} {setter : Operation}
    (hs : Operation.setter a void = .ok setter) :
    setter.name = "set_" ++ a.name ∧ setter.entity.scopePath = "" ∧
      setter.parameters.map Parameter.type = [a.type] := by
  have hfront : Name.IsWord "set_" := by decide
  have hvalue : Entity.ofName "value" = .ok { name := "value" } := rfl
  rw [Operation.setter, Operation.ofName, (h.isSingle_prepend hfront.isSingle rfl).ofName,
    Parameter.ofName, hvalue] at hs
  cases hs
  exact ⟨rfl, rfl, rfl⟩

end Attribute

namespace OperationTable

variable {t t' : OperationTable} {a b : Attribute} {op : Operation} {id : TypeId}
  {source : Operation → Prop} {name : String} {types : List TypeRef}

def Offers (t : OperationTable) (name : String) (types : List TypeRef) : Prop :=
  ∃ op ∈ t.overloads name, op.parameters.map Parameter.type = types

structure Accesses (t : OperationTable) (a : Attribute) : Prop where
  getter : t.Offers ("get_" ++ a.name) []
  setter : a.isWritable = true → t.Offers ("set_" ++ a.name) [a.type]

theorem Accesses.mono (h : t.Accesses a) (hab : a.SameData b)
    (ht : ∀ {name types}, t.Offers name types → t'.Offers name types) : t'.Accesses b where
  getter := by
    rw [hab.name]
    exact ht h.getter
  setter hw := by
    rw [hab.name, hab.type]
    exact ht (h.setter (hab.isWritable ▸ hw))

theorem Offers.exists_mem (h : t.Offers name types) (hg : t.Grouped) :
    ∃ op ∈ t.toList, op.name = name ∧ op.parameters.map Parameter.type = types := by
  obtain ⟨op, hop, htypes⟩ := h
  exact ⟨op, mem_toList_of_mem_overloads hop, hg name op hop, htypes⟩

theorem offers_insert (t : OperationTable) (libraryPrefix : String) (op : Operation) :
    (t.insert libraryPrefix op).Offers op.name (op.parameters.map Parameter.type) :=
  ⟨_, mem_overloads_insert t libraryPrefix op,
    by rw [(t.sameDeclaration_stored libraryPrefix op).parameters]⟩

theorem Extends.offers (h : Extends id source t t') (ht : t.Offers name types) :
    t'.Offers name types := by
  obtain ⟨op, hop, rfl⟩ := ht
  obtain ⟨i, hi⟩ := List.mem_iff_getElem?.mp hop
  have hplace : entry? t (name, i) = some op := hi
  obtain ⟨op', hop', rfl | ⟨-, rfl⟩⟩ := h.kept hplace
  · exact ⟨op', List.mem_of_getElem? hop', rfl⟩
  · exact ⟨_, List.mem_of_getElem? hop', rfl⟩

theorem Represents.offers (h : t.Represents id op) (hg : t.Grouped) :
    t.Offers op.name (op.parameters.map Parameter.type) := by
  obtain ⟨⟨name, i⟩, found, hfound, hsame, -⟩ := h
  have hmem : found ∈ t.overloads name := List.mem_of_getElem? hfound
  have hname : name = op.name := (hg name found hmem).symm.trans hsame.1
  exact ⟨found, hname ▸ hmem, hsame.2⟩

end OperationTable

namespace Scope.Retains

theorem offers {a b : Scope} (h : a.Retains b) {name : String} {types : List TypeRef}
    (ho : a.operations.Offers name types) : b.operations.Offers name types := by
  obtain ⟨op, hop, rfl⟩ := ho
  obtain ⟨op', hop', he⟩ := h.operations hop
  exact ⟨op', hop', by rw [he]⟩

end Scope.Retains

namespace Model

variable {p : Policy} {m m' : Model} {scope target id parent : TypeId} {a : Attribute}
  {op : Operation}

/-- Every attribute has its accessors in the scope that holds it. -/
def Accessible (m : Model) : Prop :=
  ∀ s, ∀ a ∈ (m.members s).attributes.values, a.IsNamed → (m.members s).operations.Accesses a

theorem Accessible.retained (hm : m.Accessible) (h : Retains m m') : m'.Accessible := by
  intro s b hb hn
  obtain ⟨a, ha, hab⟩ := (h.members s).attributes b hb
  exact (hm s a ha (hab.isNamed hn)).mono hab (h.members s).offers

theorem operations_withAttribute (m : Model) (target : TypeId) (a : Attribute) (s : TypeId) :
    ((m.withAttribute target a).members s).operations = (m.members s).operations := by
  by_cases hs : s = target
  · subst hs
    rw [members, members, withAttribute, scope?_modifyScope_self]
    cases m.scope? s <;> rfl
  · rw [withAttribute, members_modifyScope_of_ne hs]

theorem mem_attributes_withAttribute {s : TypeId} {b : Attribute}
    (hb : b ∈ ((m.withAttribute target a).members s).attributes.values) :
    b ∈ (m.members s).attributes.values ∨
      s = target ∧ (m.node target).isContainer = true ∧ a.SameData b := by
  by_cases hs : s = target
  · subst hs
    by_cases hc : (m.node s).isContainer = true
    · rw [withAttribute, members_modifyScope hc] at hb
      obtain rfl | hb := OrderedMap.mem_values_insert hb
      · exact .inr ⟨rfl, hc, rfl, rfl, rfl⟩
      · exact .inl hb
    · have hnone : m.scope? s = none :=
        Option.eq_none_iff_forall_ne_some.mpr fun x hx => hc (isContainer_iff.mpr ⟨x, hx⟩)
      rw [members, withAttribute, scope?_modifyScope_self, hnone] at hb
      cases hb
  · rw [withAttribute, members_modifyScope_of_ne hs] at hb
    exact .inl hb

theorem Accessible.withAttribute (hm : m.Accessible) (h : Retains (m.withAttribute target a) m')
    (hnew : a.IsNamed → (m.node target).isContainer = true →
      (m'.members target).operations.Accesses a) : m'.Accessible := by
  intro s c hc hn
  obtain ⟨b, hb, hbc⟩ := (h.members s).attributes c hc
  have hkept : ∀ {name types}, (m.members s).operations.Offers name types →
      (m'.members s).operations.Offers name types := fun ho =>
    (h.members s).offers (by rwa [operations_withAttribute])
  obtain hb | ⟨rfl, hcontainer, hab⟩ := mem_attributes_withAttribute hb
  · exact (hm s b hb (hbc.isNamed hn)).mono hbc hkept
  · exact (hnew ((hab.trans hbc).isNamed hn) hcontainer).mono (hab.trans hbc) id

theorem addOperation_of_single (hc : (m.node target).isContainer = true)
    (hp : op.entity.scopePath = "") :
    ∃ stored, addOperation target op m = .ok stored (m.withOperation target op) := by
  have hstore : addOperation target op m = storeOperation target op m := by
    simp [addOperation, requireContainer, memberScope, ModelM.bind_apply, hc, hp]
  exact ⟨_, hstore.trans rfl⟩

theorem offers_addOperation_bind {β : Type} {rest : Operation → ModelM β}
    (hc : (m.node target).isContainer = true) (hp : op.entity.scopePath = "")
    (hrest : ∀ stored m, Retains m ((rest stored).after m)) :
    (((addOperation target op >>= rest).after m).members target).operations.Offers op.name
      (op.parameters.map Parameter.type) := by
  obtain ⟨stored, he⟩ := addOperation_of_single hc hp
  rw [ModelM.after_bind, he]
  refine ((hrest stored _).members target).offers ?_
  rw [withOperation, members_modifyScope hc]
  exact OperationTable.offers_insert _ _ (m.ownedOperation target op)

theorem Accessible.enterAttribute {β : Type} {getter : Operation} {rest : Operation → ModelM β}
    (hm : m.Accessible) (hg : Operation.getter a = .ok getter)
    (hrest : ∀ stored m, Retains m ((rest stored).after m))
    (hsetter : ∀ stored m, a.IsNamed → (m.node target).isContainer = true → a.isWritable = true →
      (((rest stored).after m).members target).operations.Offers ("set_" ++ a.name) [a.type]) :
    ((Model.addOperation target getter >>= rest).after (m.withAttribute target a)).Accessible := by
  have hadded := Retains.coversEdits.addOperation target getter (m.withAttribute target a)
  refine hm.withAttribute (.bind hadded fun stored m' _ => hrest stored m') ?_
  intro hn hc
  have hc' : ((m.withAttribute target a).node target).isContainer = true := by
    rwa [Model.withAttribute, isContainer_modifyScope]
  obtain ⟨hname, hpath, hparameters⟩ := hn.getter hg
  refine ⟨?_, fun hw => ?_⟩
  · have hoffers := offers_addOperation_bind hc' hpath hrest
    rwa [hname, hparameters] at hoffers
  · obtain ⟨stored, he⟩ := addOperation_of_single hc' hpath
    rw [ModelM.after_bind, he]
    exact hsetter stored _ hn (by rwa [withOperation, isContainer_modifyScope]) hw

theorem Accessible.bind {α β : Type} {x : ModelM α} {f : α → ModelM β} (hm : m.Accessible)
    (hx : Retains m (x.after m)) (hf : ∀ a m', m'.Accessible → ((f a).after m').Accessible) :
    ((x >>= f).after m).Accessible :=
  ModelM.rel_after_bind (R := fun m m' => m.Accessible → m'.Accessible)
    (fun h h' hm => h' (h hm)) (fun hm => hm.retained hx) (fun a m' _ => hf a m') hm

theorem accessible_ofExcept_bind {α β : Type} {e : Except ModelError α} {f : α → ModelM β}
    (hm : m.Accessible) (hf : ∀ a, e = .ok a → ((f a).after m).Accessible) :
    ((ModelM.ofExcept e >>= f).after m).Accessible := by
  cases e with
  | ok a => exact hf a rfl
  | error failure => exact hm

theorem accessible_get_bind {β : Type} {f : Model → ModelM β} (h : ((f m).after m).Accessible) :
    ((get >>= f).after m).Accessible := h

theorem Accessible.addAttribute (hm : m.Accessible) :
    ((Model.addAttribute scope a).after m).Accessible := by
  unfold Model.addAttribute
  refine hm.bind (Retains.coversEdits.memberScope ..) fun target m hm => ?_
  apply accessible_get_bind
  dsimp only
  split
  · exact hm
  split
  · exact hm
  refine accessible_ofExcept_bind hm fun getter hg => ?_
  split
  · refine hm.bind (Retains.coversEdits.lookupType ..) fun void m₁ hm₁ => ?_
    simp only [map_eq_pure_bind, bind_assoc, pure_bind]
    refine accessible_ofExcept_bind hm₁ fun setter hs => accessible_get_bind ?_
    refine hm₁.enterAttribute hg (fun _ m => ?_) fun _ m hn hc _ => ?_
    · exact .bind (Retains.coversEdits.addOperation ..) fun _ m' _ => .refl m'
    · obtain ⟨hname, hpath, hparameters⟩ := hn.setter hs
      rw [← hname, ← hparameters]
      exact offers_addOperation_bind hc hpath fun _ m => .refl m
  · next hw =>
    simp only [pure_bind]
    apply accessible_get_bind
    refine hm.enterAttribute hg (fun _ m => .refl m) fun _ _ _ _ hw' => absurd hw' hw

theorem Accessible.action (hm : m.Accessible) {action : Action} (ha : action.Admissible p m) :
    (action.run.after m).Accessible := by
  by_cases hadds : ∃ scope a, action = .addAttribute scope a
  · obtain ⟨scope, a, rfl⟩ := hadds
    have hunit : (Action.addAttribute scope a).run.after m =
        (Model.addAttribute scope a).after m := by
      rw [Action.run, ModelM.after_bind, ModelM.after]
      cases Model.addAttribute scope a m <;> rfl
    rw [hunit]
    exact hm.addAttribute
  · exact hm.retained (retains_action ha fun scope a he => hadds ⟨scope, a, he⟩)

theorem accessible_rootOnly {config : Config} (h : rootOnly config = .ok m) : m.Accessible := by
  intro s a ha
  have hempty : m.members s = {} := by
    rw [members]
    cases hs : m.scope? s with
    | none => rfl
    | some members => rw [scope?_rootOnly h hs]; rfl
  rw [hempty] at ha
  cases ha

theorem accessible_create {config : Config} (h : create config = .ok m) : m.Accessible := by
  obtain ⟨root, hroot, hretains⟩ := Retains.coversEdits.create h
  exact (accessible_rootOnly hroot).retained hretains

theorem Reachable.accessible (h : Reachable p m) : m.Accessible := by
  induction h with
  | created _ new => exact accessible_create new
  | step _ action admissible ih => exact ih.action admissible

def OnlyClassesDerive (m : Model) : Prop :=
  ∀ id parent, m.Derives id parent → (m.node id).isClass = true

theorem Change.onlyClassesDerive (hc : Change p m m') (h : m.OnlyClassesDerive) :
    m'.OnlyClassesDerive := by
  have hkept : ∀ {id}, (m.node id).isClass = true → (m'.node id).isClass = true := by
    intro id hid
    have hcontainer : (m.node id).isContainer = true := by
      rw [TypeNode.isContainer_eq, TypeNode.isRecord, hid]
      simp
    rw [(hc.sameKind (knows_of_isContainer hcontainer)).isClass, hid]
  intro id parent hd
  obtain hsame | ⟨id', base, hclass, hedge, -⟩ := hc.parents_cases
  · rw [Derives, hsame] at hd
    exact hkept (h id parent hd)
  · obtain hd | ⟨rfl, -⟩ := hedge id parent hd
    · exact hkept (h id parent hd)
    · exact hkept hclass

theorem Reachable.onlyClassesDerive (h : Reachable p m) : m.OnlyClassesDerive := by
  refine h.induct (fun _ hroot id parent hd => ?_) fun _ ih hc => hc.onlyClassesDerive ih
  obtain ⟨members, hs, hparent⟩ := mem_parents_iff.mp hd
  rw [scope?_rootOnly hroot hs] at hparent
  cases hparent

theorem Lineage.attributes_eq (h : Lineage p m) (id : TypeId) :
    m.attributes id = (m.parents id).foldl
      (fun found parent => (m.attributes parent).foldl (m.inheritAttribute id) found)
      (m.members id).attributes.values := by
  rw [h.attributes_unique.mpr rfl id, attributesOver, parents, members]
  cases m.scope? id <;> rfl

theorem mem_foldl_inheritAttribute {attributes found : List Attribute} {b : Attribute}
    (hb : b ∈ attributes.foldl (m.inheritAttribute id) found) :
    b ∈ found ∨ ∃ a ∈ attributes, a.SameData b := by
  induction attributes generalizing found with
  | nil => exact .inl hb
  | cons a attributes ih =>
    obtain hb | ⟨c, hc, hcb⟩ := ih hb
    · rw [inheritAttribute] at hb
      split at hb
      · exact .inl hb
      · obtain hb | hb := List.mem_append.mp hb
        · exact .inl hb
        · obtain rfl := List.mem_singleton.mp hb
          exact .inr ⟨a, List.mem_cons_self, rfl, rfl, rfl⟩
    · exact .inr ⟨c, List.mem_cons_of_mem a hc, hcb⟩

theorem mem_foldl_parents {parents : List TypeId} {found : List Attribute} {b : Attribute}
    (hb : b ∈ parents.foldl (fun found parent =>
      (m.attributes parent).foldl (m.inheritAttribute id) found) found) :
    b ∈ found ∨ ∃ parent ∈ parents, ∃ a ∈ m.attributes parent, a.SameData b := by
  induction parents generalizing found with
  | nil => exact .inl hb
  | cons parent parents ih =>
    obtain hb | ⟨parent', hp, hfrom⟩ := ih hb
    · exact (mem_foldl_inheritAttribute hb).imp_right fun hfrom =>
        ⟨parent, List.mem_cons_self, hfrom⟩
    · exact .inr ⟨parent', List.mem_cons_of_mem parent hp, hfrom⟩

/-- An attribute is one of the struct or class itself, or the form of one that a parent has. -/
theorem mem_attributes_cases (h : Lineage p m) {b : Attribute} (hb : b ∈ m.attributes id) :
    b ∈ (m.members id).attributes.values ∨
      ∃ parent, m.Derives id parent ∧ ∃ a ∈ m.attributes parent, a.SameData b := by
  rw [h.attributes_eq] at hb
  exact mem_foldl_parents hb

theorem offers_operationTable_of_own (h : Lineage p m) {name : String} {types : List TypeRef}
    (ho : (m.members id).operations.Offers name types) :
    (m.operationTable id).Offers name types := by
  cases hs : m.scope? id with
  | none =>
    rw [members, hs] at ho
    obtain ⟨op, hop, -⟩ := ho
    cases hop
  | some a =>
    rw [members_of_scope hs] at ho
    by_cases hc : (m.node id).isClass = true
    · exact (extends_operationTable h hc hs).offers ho
    · rwa [operationTable_eq h hs, if_neg hc]

theorem offers_operationTable_of_parent (h : Lineage p m) (hc : m.OnlyClassesDerive)
    (hd : m.Derives id parent) {name : String} {types : List TypeRef}
    (ho : (m.operationTable parent).Offers name types) :
    (m.operationTable id).Offers name types := by
  obtain ⟨op, hop, rfl, rfl⟩ := ho.exists_mem (grouped_operationTable h parent)
  have hmem : op ∈ m.inheritedOperations id := mem_inheritedOperations.mpr ⟨parent, hd, hop⟩
  exact (represents_operationTable h (hc id parent hd) hmem).offers (grouped_operationTable h id)

theorem accesses_operationTable (hm : m.Accessible) (h : Lineage p m) (hc : m.OnlyClassesDerive)
    (id : TypeId) : ∀ a ∈ m.attributes id, a.IsNamed → (m.operationTable id).Accesses a := by
  induction id using h.wellFounded.induction with
  | _ id ih =>
    intro b hb hn
    obtain hown | ⟨parent, hd, a, ha, hab⟩ := mem_attributes_cases h hb
    · exact (hm id b hown hn).mono ⟨rfl, rfl, rfl⟩ (offers_operationTable_of_own h)
    · exact (ih parent hd a ha (hab.isNamed hn)).mono hab (offers_operationTable_of_parent h hc hd)

/-- With an attribute, its own or inherited over any number of levels, a struct or class has the
operation that reads it and, if it can be written, the one that writes it. All attributes that are
made under a name have such a name. -/
theorem Reachable.attributes_accessible (h : Reachable p m) (id : TypeId) {a : Attribute}
    (ha : a ∈ m.attributes id) (named : a.IsNamed) :
    (∃ op ∈ (m.operationTable id).toList, op.name = "get_" ++ a.name ∧ op.parameters = []) ∧
    (a.isWritable = true → ∃ op ∈ (m.operationTable id).toList, op.name = "set_" ++ a.name ∧
      ∃ value, op.parameters = [value] ∧ value.type = a.type) := by
  have hgrouped := grouped_operationTable h.lineage id
  have haccesses := accesses_operationTable h.accessible h.lineage h.onlyClassesDerive id a ha named
  constructor
  · obtain ⟨op, hop, hname, htypes⟩ := haccesses.getter.exists_mem hgrouped
    exact ⟨op, hop, hname, List.map_eq_nil_iff.mp htypes⟩
  · intro hw
    obtain ⟨op, hop, hname, htypes⟩ := (haccesses.setter hw).exists_mem hgrouped
    obtain ⟨value, hvalue, htype⟩ := List.map_eq_singleton_iff.mp htypes
    exact ⟨op, hop, hname, value, hvalue, htype⟩

def inheritedAttribute : List Action :=
  [.addType .root { entity := { name := "void" }, kind := .basic } true,
   .addType .root (declaration .classType "" "A") true,
   .addType .root (declaration .classType "" "D") true,
   .addAttribute ⟨2⟩ ⟨{ name := "x", flags := [.readWrite] }, .raw ⟨1⟩⟩, .addParent ⟨3⟩ ⟨2⟩]

theorem reachable_inheritedAttribute : Reachable .free (bare.afterAll inheritedAttribute) := by
  refine reachable_bare.afterAll ?_
  simp only [inheritedAttribute, List.forall_mem_cons, List.not_mem_nil, false_imp_iff,
    implies_true, and_true]
  refine ⟨fun _ => ?_, fun _ => isFresh_declaration nofun nofun,
    fun _ => isFresh_declaration nofun nofun, fun _ => trivial, fun _ => trivial⟩
  exact ⟨⟨rfl, nofun, rfl⟩, nofun, nofun, nofun, rfl, nofun⟩

/-- The class `D` has the attribute `x` of `A` and the operation that writes it. -/
theorem attributes_accessible_of_inherited : ∃ m a, Reachable .free m ∧ m.Derives ⟨3⟩ ⟨2⟩ ∧
    a ∈ m.attributes ⟨3⟩ ∧ a.IsNamed ∧ a.isWritable = true ∧
    ∃ op ∈ (m.operationTable ⟨3⟩).toList, op.name = "set_x" ∧
      ∃ value, op.parameters = [value] ∧ value.type = .raw ⟨1⟩ := by
  have hderives : (bare.afterAll inheritedAttribute).Derives ⟨3⟩ ⟨2⟩ := by
    unfold Derives
    decide +kernel
  let x : Attribute :=
    ⟨{ name := "x", scopePath := "D", owner := some ⟨3⟩, flags := [.readWrite], version := 3 },
      .raw ⟨1⟩⟩
  have hx : x ∈ (bare.afterAll inheritedAttribute).attributes ⟨3⟩ := by decide +kernel
  have hnamed : x.IsNamed := ⟨"x", _, rfl, rfl⟩
  have hwritable : x.isWritable = true := rfl
  exact ⟨_, x, reachable_inheritedAttribute, hderives, hx, hnamed, hwritable,
    (reachable_inheritedAttribute.attributes_accessible ⟨3⟩ hx hnamed).2 hwritable⟩

end Model

end ApiModel
