import ApiModel.Model.Member
import ApiModel.Proofs.Does

/-!
What the operations that declare, delete, rename and move types do, and those that add members: each
is a run of elementary changes, also where it fails half-way.
-/

namespace ApiModel

open Relation

theorem TypeNode.isFresh_of_ofName {p : Policy} {name : String} {kind : TypeKind} {node : TypeNode}
    (h : ofName name kind = .ok node) (ha : p.Allows name)
    (hm : ∀ scope, node.scope? = some scope → scope = {})
    (hs : ∀ specializer, node.specializer? = some specializer → specializer.Within p) :
    node.IsFresh p := by
  obtain ⟨e, he, rfl⟩ := ofName_eq_ok h
  obtain ⟨path, hn, rfl⟩ := Entity.ofName_eq_ok he
  have hp := ha.normalize hn
  exact {
    owner := rfl
    members := hm
    isRoot := rfl
    name := hp.mono (Path.baseName_subset path)
    scopePath := hp.mono (Path.parent_subset path)
    aliasName := nofun
    specialization := rfl
    specializer := hs }

theorem PlainKind.scope?_of_ofName {kind : PlainKind} {name : String} {node : TypeNode}
    (h : TypeNode.ofName name kind.toTypeKind = .ok node) :
    (∀ scope, node.scope? = some scope → scope = {}) ∧ node.specializer? = none := by
  obtain ⟨e, -, rfl⟩ := TypeNode.ofName_eq_ok h
  cases kind <;> simp [toTypeKind, TypeNode.scope?, TypeNode.specializer?, eq_comm]

theorem PlainKind.isFresh_of_ofName {p : Policy} {kind : PlainKind} {name : String}
    {node : TypeNode} (h : TypeNode.ofName name kind.toTypeKind = .ok node) (ha : p.Allows name) :
    node.IsFresh p := by
  obtain ⟨hm, hs⟩ := scope?_of_ofName h
  exact TypeNode.isFresh_of_ofName h ha hm fun s hsp => by simp [hs] at hsp

namespace Model

variable {p : Policy} {m : Model} {scope id : TypeId} {node : TypeNode}

theorem does_requireContainer (id : TypeId) (what : String) :
    Does p m (requireContainer id what) fun _ m' => m = m' ∧ (m.node id).isContainer = true := by
  unfold requireContainer
  refine .get_bind ?_
  split
  · next h => exact .pure ⟨rfl, h⟩
  · exact .throw _

theorem does_attach (hk : m.Knows id) (hr : id ≠ .root) (ho : m.owner? id = none)
    (hc : (m.node scope).isContainer = true) (hfree : m.type? scope (m.node id).name = none)
    (hi : ¬ m.Inside scope id) :
    Does p m (attach scope id) fun _ m' => m' = m.linked scope id :=
  .of_ok (attach_eq hc) (.single (.linked hk hr ho hc hfree hi)) rfl

theorem does_detach (id : TypeId) :
    Does p m (detach id) fun _ m' => ∃ owner, m.Member id owner ∧ m' = m.released owner id := by
  by_cases h : ∃ owner, m.Member id owner
  · obtain ⟨owner, hm⟩ := h
    exact .of_ok (detach_eq hm.1 hm.2) (.single (.released hm)) ⟨owner, hm, rfl⟩
  · obtain ⟨e, he⟩ := detach_eq_error fun owner hm => h ⟨owner, hm⟩
    exact .of_error he .refl

theorem not_inside_next (ht : m.IsTree) (hn : node.IsBlank) (hk : m.Knows scope) :
    ¬ (m.allocated node).Inside scope m.next := by
  intro h
  obtain he | ⟨c, hc, ho⟩ := h.cases_tail
  · exact ne_next_of_knows hk he.symm
  · by_cases hcn : c = m.next
    · rw [hcn, Owned, owner?, node_allocated_next, hn.owner] at ho
      cases ho
    · rw [Owned, owner?, node_allocated_of_ne hcn] at ho
      exact not_knows_next (ht.owner_known ho)

theorem does_allocate_attach (hs : Sound p m) (hc : Change p m (m.allocated node))
    (hn : node.IsBlank) (hk : m.Knows scope) (hfree : m.type? scope node.name = none) :
    Does p m (do let id ← allocate node; attach scope id; return id) fun id m' =>
      id = m.next ∧ (m.node scope).isContainer = true ∧
        m' = (m.allocated node).linked scope m.next := by
  have halloc : Does p m (allocate node) fun id m' => id = m.next ∧ m' = m.allocated node :=
    .of_ok rfl (.single hc) ⟨rfl, rfl⟩
  have hne := ne_next_of_knows hk
  refine halloc.bind ?_
  rintro _ _ - ⟨rfl, rfl⟩
  have hki : (m.allocated node).Knows m.next := by simp [Knows, next]
  have hr : m.next ≠ .root := (ne_next_of_knows hs.isTree.knows_root).symm
  have ho : (m.allocated node).owner? m.next = none := by
    rw [owner?, node_allocated_next, hn.owner]
  have hi := not_inside_next hs.isTree hn hk
  by_cases hcs : ((m.allocated node).node scope).isContainer = true
  · refine (does_attach hki hr ho hcs ?_ hi).bind ?_
    · rw [node_allocated_next, type?, scope?, node_allocated_of_ne hne]
      exact hfree
    · rintro _ _ - rfl
      rw [node_allocated_of_ne hne] at hcs
      exact .pure ⟨rfl, hcs, rfl⟩
  · have hcs' : ((m.allocated node).node scope).isContainer = false := by simpa using hcs
    obtain ⟨e, he⟩ := attach_eq_error m.next hcs'
    have hempty : ∀ members, (m.allocated node).scope? m.next = some members → members = {} := by
      rw [scope?, node_allocated_next]
      exact hn.members
    have hattach : Does p (m.allocated node) (attach scope m.next) fun _ _ => False :=
      .of_error he (.single (.stranded hki hr ho hempty hk.allocated hcs' hi))
    exact hattach.bind fun _ _ _ h => False.elim h

theorem does_enterNamespace {name : String} (hs : Sound p m) (hk : m.Knows scope)
    (hname : name = "" ∨ Entity.ofName name = .ok { name }) (ha : p.Allows name) :
    Does p m (enterNamespace scope name) fun id m' => (m'.node id).isContainer = true := by
  unfold enterNamespace
  split
  · exact .pure hs.isTree.root_container
  · next hne =>
    refine .get_bind ?_
    split
    · next id _ =>
      refine (does_requireContainer id _).bind ?_
      rintro - _ - ⟨rfl, hc⟩
      exact .pure hc
    · next hfree =>
      refine .ofExcept_bind fun node h => ?_
      have hfresh := PlainKind.isFresh_of_ofName h ha
      have hnode : node = { entity := { name }, kind := .container .namespaceType {} } := by
        rw [TypeNode.ofName, hname.resolve_left hne] at h
        cases h
        rfl
      have hname' : node.name = name := by rw [hnode]; rfl
      refine (does_allocate_attach hs (.declared hfresh) hfresh.toIsBlank hk
        (hname' ▸ hfree)).mono ?_
      rintro _ _ - ⟨rfl, -, rfl⟩
      rw [(sameKind_linked scope m.next m.next).isContainer, node_allocated_next, hnode]
      rfl

theorem does_addNamespace {path : String} (hs : Sound p m) (hk : m.Knows scope)
    (ha : p.Allows path) :
    Does p m (addNamespace scope path) fun id m' => (m'.node id).isContainer = true := by
  unfold addNamespace
  refine .ofExcept_bind fun path' hn => ?_
  have hparts : ∀ part ∈ Path.components path',
      (part = "" ∨ Entity.ofName part = .ok { name := part }) ∧ p.Allows part := by
    refine fun part hp => ⟨?_, (ha.normalize hn).mono (Path.components_subset hp)⟩
    by_cases he : part = ""
    · exact .inl he
    · exact .inr (Entity.ofName_of_mem_components (Name.isNormal_of_normalize hn) hp he)
  have hne : Path.components path' ≠ [] := by simp [Path.components]
  -- every step leads to a scope with members, and there is at least one step
  have hsteps : ∀ (parts : List String) (scope : TypeId) (m : Model), Sound p m → m.Knows scope →
      (∀ part ∈ parts, (part = "" ∨ Entity.ofName part = .ok { name := part }) ∧ p.Allows part) →
      Does p m (parts.foldlM enterNamespace scope) fun id m' =>
        parts ≠ [] ∨ (m.node scope).isContainer = true → (m'.node id).isContainer = true := by
    intro parts
    induction parts with
    | nil => exact fun scope m _ _ _ => .pure fun h => h.resolve_left (by simp)
    | cons part parts ih =>
      intro scope m hs hk hp
      rw [List.foldlM_cons]
      obtain ⟨hname, ha⟩ := hp part List.mem_cons_self
      refine (does_enterNamespace hs hk hname ha).bind fun id m' hr hc => ?_
      refine (ih id m' (hr.sound hs) (knows_of_isContainer hc)
        fun part' hp' => hp part' (List.mem_cons_of_mem part hp')).mono fun id' m'' hr' h _ => ?_
      exact h (.inr hc)
  exact (hsteps _ scope m hs hk hparts).mono fun _ _ _ h => h (.inl hne)

theorem does_declarationScope {path : String} (hs : Sound p m)
    (hc : (m.node scope).isContainer = true) (ha : p.Allows path) :
    Does p m (declarationScope scope path) fun id m' => (m'.node id).isContainer = true := by
  unfold declarationScope
  refine .get_bind ?_
  split
  · exact .pure hc
  · exact does_addNamespace hs (knows_of_isContainer hc) ha

theorem does_enterType {checkExists : Bool} (hs : Sound p m)
    (hc : (m.node scope).isContainer = true) (hn : node.IsFresh p) :
    Does p m (enterType scope node checkExists) fun id m' => m'.Knows id := by
  have hk := knows_of_isContainer hc
  -- the new node takes the place of what is gone
  have hnew : ∀ m', Run p m m' → m'.type? scope node.name = none →
      Does p m' (do let id ← allocate node; attach scope id; return id) fun id m' =>
        m'.Knows id := by
    intro m' hr hfree
    refine (does_allocate_attach (hr.sound hs) (.declared hn) hn.toIsBlank (hr.knows hk)
      hfree).mono ?_
    rintro _ _ - ⟨rfl, -, rfl⟩
    simp [Knows, next]
  unfold enterType
  refine .get_bind ?_
  split
  · next existing hex =>
    obtain ⟨hname, ho⟩ := hs.isTree.listed hex
    split
    · exact .pure (knows_of_owner ho)
    · split
      · have hset : Does p m (set (m.modifyNode existing (·.adopt node))) fun _ _ => True :=
          .set (.annotated (.adopt hn.aliasName _)) trivial
        exact hset.bind fun _ m' hr _ => .pure (hr.knows (knows_of_owner ho))
      · have hreplace : Does p m (do
            detach existing
            let id ← allocate node
            attach scope id
            return id) fun id m' => m'.Knows id := by
          refine (does_detach existing).bind ?_
          rintro - m' hr ⟨owner, hm, rfl⟩
          obtain rfl : owner = scope := hm.1.unique ho
          refine hnew _ hr ?_
          rw [type?_released (hs.isTree.owned hm.1 hm.2), if_pos ⟨rfl, hname.symm⟩]
        split
        · exact .throw_bind _ _
        · exact hreplace
  · next hfree => exact hnew m .refl hfree

theorem does_addTypeWith {checkExists : Bool} (hs : Sound p m) (hn : node.IsFresh p) :
    Does p m (addTypeWith scope node checkExists) fun id m' => m'.Knows id := by
  unfold addTypeWith
  refine (does_requireContainer scope _).bind ?_
  rintro - _ - ⟨rfl, hc⟩
  refine (does_declarationScope hs hc hn.scopePath).bind fun scope' m' hr hc' => ?_
  exact does_enterType (hr.sound hs) hc' hn

theorem does_addType_of_free (hs : Sound p m) (hc : Change p m (m.allocated node))
    (hn : node.IsBlank) (hpath : node.entity.scopePath = "")
    (hfree : m.type? scope node.name = none) :
    Does p m (addType scope node) fun id m' =>
      id = m.next ∧ m' = (m.allocated node).linked scope m.next := by
  unfold addType addTypeWith
  refine (does_requireContainer scope _).bind ?_
  rintro - _ - ⟨rfl, hcs⟩
  have hscope : Does p m (declarationScope scope node.entity.scopePath) fun id m' =>
      scope = id ∧ m = m' := by
    unfold declarationScope
    refine .get_bind ?_
    rw [if_pos (by simp [hpath])]
    exact .pure ⟨rfl, rfl⟩
  refine hscope.bind ?_
  rintro _ _ - ⟨rfl, rfl⟩
  unfold enterType
  refine .get_bind ?_
  simp only [hfree]
  refine (does_allocate_attach hs hc hn (knows_of_isContainer hcs) hfree).mono ?_
  rintro _ _ - ⟨rfl, -, rfl⟩
  exact ⟨rfl, rfl⟩

theorem does_addTemplate {name : String} {specializer : Specializer} (hs : Sound p m)
    (ha : p.Allows name) (hw : specializer.Within p) :
    Does p m (addTemplate scope name specializer) fun id m' => m'.Knows id := by
  unfold addTemplate
  refine .ofExcept_bind fun node h => ?_
  have hkind : node.kind = .template specializer := by
    obtain ⟨e, -, rfl⟩ := TypeNode.ofName_eq_ok h
    rfl
  refine does_addTypeWith hs (TypeNode.isFresh_of_ofName h ha ?_ ?_)
  · simp [TypeNode.scope?, hkind]
  · simp only [TypeNode.specializer?, hkind, Option.some.injEq]
    rintro _ rfl
    exact hw

theorem does_addTypedef {name : String} {target : TypeRef} (ha : p.Allows name)
    (ht : p.AllowsTypedef m target) :
    Does p m (addTypedef scope name target) fun _ _ => True := by
  unfold addTypedef
  refine (does_requireContainer scope _).bind ?_
  rintro - _ - ⟨rfl, -⟩
  refine .ofExcept_bind fun name' hn => .get_bind ?_
  dsimp only
  split
  · exact .throw_bind _ _
  · exact .set (.typedefAdded (ha.normalize hn) ht) trivial

theorem does_addEnumValue {name : String} {value : Option String} :
    Does p m (addEnumValue id name value) fun _ _ => True := by
  unfold addEnumValue
  refine .get_bind ?_
  split
  · next values h =>
    refine .set (.annotated ?_) trivial
    have hk : ∃ values, (m.node id).kind = .enumeration values := by
      cases hk : (m.node id).kind <;> simp_all [TypeNode.values?]
    obtain ⟨values', hk⟩ := hk
    refine ⟨⟨?_, ?_, rfl⟩, rfl, rfl, rfl, rfl, ?_, .inl rfl⟩
    · simp [TypeNode.entityKind, hk]
    · simp [TypeNode.specializer?, hk]
    · simp [TypeNode.scope?, hk]
  · exact .throw _

theorem does_requireFree (scope : TypeId) (name : String) (id : TypeId) :
    Does p m (requireFree scope name id) fun _ m' =>
      m = m' ∧ ∀ other, m.type? scope name = some other → other = id := by
  unfold requireFree
  refine .get_bind ?_
  split
  · exact .throw _
  · next h =>
    refine .pure ⟨rfl, fun other ho => ?_⟩
    simpa [ho] using h

theorem IsTree.ne_root_of_owned (h : m.IsTree) (ho : m.Owned id scope) : id ≠ .root := by
  rintro rfl
  rw [Owned, h.root_owner] at ho
  cases ho

theorem does_moveType (hs : Sound p m) : Does p m (moveType id scope) fun _ _ => True := by
  unfold moveType
  refine (does_requireContainer scope _).bind ?_
  rintro - _ - ⟨rfl, hc⟩
  refine .get_bind ?_
  dsimp only
  split
  · exact .throw_bind _ _
  · next hw =>
    rw [hs.isTree.isWithin_iff] at hw
    refine (does_requireFree scope _ id).bind ?_
    rintro - _ - ⟨rfl, hfree⟩
    refine (does_detach id).bind ?_
    rintro - _ - ⟨owner, hm, rfl⟩
    have hk := knows_of_owner hm.1
    refine (does_attach ?_ (hs.isTree.ne_root_of_owned hm.1) ?_ ?_ ?_ ?_).mono
      fun _ _ _ _ => trivial
    · simpa using hk
    · rw [owner?_released hk, if_pos rfl]
    · simpa using hc
    · rw [name_released]
      exact type?_released_eq_none hs.isTree hm hfree
    · exact not_inside_released hk hw

/-- The node gets a name and a scope, its present owner or any other scope outside of it. -/
theorem does_relink {name : String} (hs : Sound p m)
    (hc : m.owner? id = some scope ∨ (m.node scope).isContainer = true)
    (hi : ¬ m.Inside scope id) (ha : p.Allows name) :
    Does p m (do
      requireFree scope name id
      detach id
      modify fun m => m.modifyNode id (·.mapEntity (·.setName name))
      attach scope id) fun _ _ => True := by
  refine (does_requireFree scope name id).bind ?_
  rintro - _ - ⟨rfl, hfree⟩
  refine (does_detach id).bind ?_
  rintro - _ - ⟨owner, hm, rfl⟩
  have hki : (m.released owner id).Knows id := by simpa using knows_of_owner hm.1
  have ho : (m.released owner id).owner? id = none := by
    rw [owner?_released (knows_of_owner hm.1), if_pos rfl]
  have hnamed : Does p (m.released owner id)
      (modify fun m => m.modifyNode id (·.mapEntity (·.setName name)))
      fun _ m' => m' = (m.released owner id).named id name :=
    .modify (.named hki (hs.isTree.ne_root_of_owned hm.1) ho ha) rfl
  refine hnamed.bind ?_
  rintro - _ - rfl
  refine (does_attach ?_ (hs.isTree.ne_root_of_owned hm.1) ?_ ?_ ?_ ?_).mono
    fun _ _ _ _ => trivial
  · simpa using hki
  · rw [owner?_named, ho]
  · obtain ho | hc := hc
    · obtain rfl := hm.1.unique ho
      simpa [named] using hm.2
    · simpa [named] using hc
  · rw [name_named hki, type?_named]
    exact type?_released_eq_none hs.isTree hm hfree
  · rw [inside_named]
    exact not_inside_released (knows_of_owner hm.1) hi

/-- The type is to be renamed into a namespace that lies inside of it. -/
def RenamesIntoItself (m : Model) (id : TypeId) (name : String) : Prop :=
  ∃ path target m', Name.normalize name = .ok path ∧ Path.parent path ≠ "" ∧
    addNamespace .root (Path.parent path) m = .ok target m' ∧ m'.isWithin target id = true

theorem does_renameType {name : String} (hs : Sound p m) (ha : p.Allows name)
    (hi : ¬ m.RenamesIntoItself id name) : Does p m (renameType id name) fun _ _ => True := by
  unfold renameType
  refine .ofExcept_bind fun path hn => ?_
  have hbase := (ha.normalize hn).mono (Path.baseName_subset path)
  dsimp only
  split
  · refine .get_bind ?_
    split
    · next owner ho =>
      rw [pure_bind]
      exact does_relink hs (.inl ho) (hs.isTree.not_inside_of_owned ho) hbase
    · exact .get_bind (.throw_bind _ _)
  · next hparent =>
    have hadd := does_addNamespace hs hs.isTree.knows_root
      ((ha.normalize hn).mono (Path.parent_subset path))
    refine hadd.bind_eq fun target m' he hc => ?_
    have hs' := (hadd.run_of_ok he).sound hs
    refine does_relink hs' (.inr hc) ?_ hbase
    rw [← hs'.isTree.isWithin_iff]
    exact fun hw => hi ⟨path, target, m', hn, hparent, he, hw⟩

theorem does_memberScope (scope : TypeId) (path : String) (accept : TypeNode → Bool) :
    Does p m (memberScope scope path accept) fun id m' =>
      m = m' ∧ (id = scope ∨ accept (m.node id) = true) := by
  unfold memberScope
  refine .get_bind ?_
  split
  · exact .pure ⟨rfl, .inl rfl⟩
  · split
    · next target hf => exact .pure ⟨rfl, .inr (Option.mem_filter_iff.mp hf).2⟩
    · exact .throw _

theorem does_addOperation {op : Operation} (ht : p.Takes op) :
    Does p m (addOperation scope op) fun _ _ => True := by
  unfold addOperation
  refine (does_requireContainer scope _).bind ?_
  rintro - _ - ⟨rfl, -⟩
  refine (does_memberScope scope _ _).bind ?_
  rintro target _ - ⟨rfl, -⟩
  unfold storeOperation
  refine .get_bind ?_
  have hset : Does p m (set (m.withOperation target op)) fun _ _ => True :=
    .set (.operationAdded ht) trivial
  exact hset.bind fun _ _ _ _ => .pure trivial

theorem does_addConstant {c : Constant} (hs : Sound p m) (ha : p.Allows c.entity.scopePath) :
    Does p m (addConstant scope c) fun _ _ => True := by
  unfold addConstant
  refine (does_requireContainer scope _).bind ?_
  rintro - _ - ⟨rfl, hc⟩
  refine (does_declarationScope hs hc ha).bind fun target m' _ _ => .get_bind ?_
  dsimp only
  split
  · exact .throw_bind _ _
  · have hset : Does p m' (set (m'.withConstant target c)) fun _ _ => True :=
      .set .constantAdded trivial
    exact hset.bind fun _ _ _ _ => .pure trivial

theorem does_useNamespace {used : TypeId} :
    Does p m (useNamespace scope used) fun _ _ => True := by
  unfold useNamespace
  refine (does_requireContainer scope _).bind ?_
  rintro - _ - ⟨rfl, -⟩
  refine (does_requireContainer used _).bind ?_
  rintro - _ - ⟨rfl, hc⟩
  exact .modify (.usedAdded (knows_of_isContainer hc)) trivial

theorem parents_congr {m' : Model} (h : ∀ id, m'.scope? id = m.scope? id) :
    m'.parents = m.parents := by
  funext id
  rw [parents, parents, h]

theorem derivesFrom_congr {m' : Model} (h : m'.parents = m.parents) (hs : m'.size = m.size) :
    m'.derivesFrom = m.derivesFrom := by
  have hw : ∀ ancestor levels id,
      m'.derivesWithin ancestor levels id = m.derivesWithin ancestor levels id := by
    intro ancestor levels
    induction levels with
    | zero => exact fun _ => rfl
    | succ levels ih =>
      intro id
      rw [derivesWithin, derivesWithin, h]
      simp only [ih]
  funext id ancestor
  rw [derivesFrom, derivesFrom, hs, hw]

theorem does_addParent {base : TypeId} : Does p m (addParent id base) fun _ _ => True := by
  unfold addParent
  refine .get_bind ?_
  dsimp only
  split
  · exact .throw_bind _ _
  next hclass =>
  split
  · exact .throw_bind _ _
  next hrecord =>
  split
  · exact .throw_bind _ _
  next hother =>
  split
  · exact .throw_bind _ _
  -- the base is annotated, which changes nothing that was checked
  let f : TypeNode → TypeNode := fun node => { node with checkType := false }
  have hf : ∀ node : TypeNode, node.Annotated p (f node) := fun node =>
    ⟨⟨rfl, rfl, rfl⟩, rfl, rfl, rfl, rfl, rfl, .inl rfl⟩
  have hc : Change p m (m.modifyNode base f) := .annotated (hf _)
  have hann : ∀ j, (m.node j).Annotated p ((m.modifyNode base f).node j) :=
    rel_modifyNode .refl (hf _)
  have hparent : Change p (m.modifyNode base f) ((m.modifyNode base f).withParent id base) := by
    simp only [Bool.or_eq_true, decide_eq_true_eq, not_or, Bool.not_eq_true] at hother
    refine .parentAdded ?_ ?_ hother.1 ?_
    · simpa [(hann id).isClass] using hclass
    · simpa [(hann base).isRecord] using hrecord
    · rw [derivesFrom_congr (parents_congr fun j => (hann j).scope) (size_modifyNode ..)]
      exact hother.2
  rw [withParent, (hann base).name] at hparent
  exact .of_ok rfl ((ReflTransGen.single hc).tail hparent) trivial

end Model

end ApiModel
