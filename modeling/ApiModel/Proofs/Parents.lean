import ApiModel.Proofs.Accessors
import ApiModel.Proofs.ExportNames

/-!
The parents that a class lists, over the whole history of a model. A parent is entered under the
name that it has at that time, and later names of it do not reach the class. So a class can list one
parent twice, but only if the parent was given another name while the class had it.
-/

namespace ApiModel

namespace Model

variable {p : Policy} {m m' m'' : Model} {id base : TypeId} {steps : List (Model × Action)}
  {renamed : TypeId → Prop}

/-- The parents of all classes are as they were, and so are the names of all types but the renamed
ones. -/
structure KeepsParents (renamed : TypeId → Prop) (m m' : Model) : Prop where
  size_le : m.size ≤ m'.size
  parents : ∀ s, (m'.members s).parents = (m.members s).parents
  name : ∀ id, m.Knows id → ¬ renamed id → (m'.node id).name = (m.node id).name

namespace KeepsParents

theorem refl (m : Model) : KeepsParents renamed m m := ⟨le_rfl, fun _ => rfl, fun _ _ _ => rfl⟩

theorem trans (h : KeepsParents renamed m m') (h' : KeepsParents renamed m' m'') :
    KeepsParents renamed m m'' where
  size_le := h.size_le.trans h'.size_le
  parents s := (h'.parents s).trans (h.parents s)
  name id hk hr := (h'.name id (Nat.lt_of_lt_of_le hk h.size_le) hr).trans (h.name id hk hr)

theorem modifyNode {f : TypeNode → TypeNode}
    (hp : ((f (m.node id)).scope?.getD {}).parents = ((m.node id).scope?.getD {}).parents)
    (hn : ¬ renamed id → (f (m.node id)).name = (m.node id).name) :
    KeepsParents renamed m (m.modifyNode id f) where
  size_le := by rw [size_modifyNode]
  parents := rel_modifyNode (R := fun a b =>
    (b.scope?.getD {}).parents = (a.scope?.getD {}).parents) (fun _ => rfl) hp
  name j _ hr := by
    by_cases hj : j = id
    · subst hj
      exact rel_modifyNode (R := fun a b => b.name = a.name) (fun _ => rfl) (hn hr) j
    · rw [node_modifyNode_of_ne _ hj]

theorem modifyScope {f : Scope → Scope} (hf : ∀ a, (f a).parents = a.parents) :
    KeepsParents renamed m (m.modifyNode id (·.mapScope f)) := by
  refine modifyNode ?_ fun _ => TypeNode.name_mapScope f _
  rw [TypeNode.scope?_mapScope]
  cases (m.node id).scope? with
  | none => rfl
  | some a => exact hf a

theorem annotated {f : TypeNode → TypeNode}
    (h : (m.node id).Annotated .free (f (m.node id))) :
    KeepsParents renamed m (m.modifyNode id f) :=
  modifyNode (by rw [h.scope]) fun _ => h.name

theorem allocated {node : TypeNode} (hn : node.IsBlank) :
    KeepsParents renamed m (m.allocated node) where
  size_le := by simp
  parents s := by rw [members_allocated_of_isBlank hn]
  name j hk _ := by rw [node_allocated_of_ne (ne_next_of_knows hk)]

theorem repathed (h : m.Repathed m') : KeepsParents renamed m m' where
  size_le := h.size_eq.ge
  parents s := by
    have hparents := (h.node s).map_scope?_eq (g := Scope.parents) fun _ _ => rfl
    rw [members, members, scope?, scope?]
    cases hs : (m.node s).scope? <;> cases hs' : (m'.node s).scope? <;> simp_all
  name id _ _ := (h.node id).sameShape.name

theorem coversEdits (renamed : TypeId → Prop) :
    CoversEdits TypeNode.IsBlank (KeepsParents renamed) where
  refl := refl
  trans := trans
  declared hn := (PlainKind.isSimple_of_ofName hn).toIsBlank
  template := TypeNode.isBlank_of_template
  exported text hn := hn.exported text
  specialized _ _ _ := (TypeNode.isSimple_specialized _ _).toIsBlank
  ownerWritten _ _ _ _ := modifyNode rfl fun _ => rfl
  entered _ _ _ := modifyScope fun _ => by
    unfold Scope.enterType
    split <;> rfl
  removed _ _ _ _ := modifyScope fun _ => rfl
  repathed := repathed
  allocated _ _ := allocated
  adopted _ _ _ _ := annotated (.adopt (p := .free) (fun _ _ => nofun) _)
  operationAdded _ _ _ := modifyScope fun _ => rfl
  annotated := annotated
  typedefAdded _ _ _ _ := modifyScope fun _ => rfl
  constantAdded _ _ _ := modifyScope fun _ => rfl
  usedAdded _ _ _ := modifyScope fun _ => by
    unfold Scope.use
    split <;> rfl
  consulted m _ _ := ⟨le_rfl, fun _ => rfl, fun _ _ _ => rfl⟩

/-- All operations but the addition of a parent leave the parents of all classes alone, and all but
the renaming of a type leave its name alone, whatever lookups they make. -/
theorem action {action : Action} (ha : action.Admissible p m)
    (hparent : ∀ id base, action ≠ .addParent id base) :
    KeepsParents (fun id => ∃ name, action = .renameType id name) m (action.run.after m) := by
  refine (coversEdits _).action ha (isBlank_of_admissible ha)
    (fun _ _ _ _ _ => modifyScope fun _ => rfl)
    (fun id base he => absurd he (hparent id base)) fun id name he m path _ => ?_
  exact modifyNode rfl fun hr => absurd ⟨name, he⟩ hr

end KeepsParents

theorem parents_eq_values (m : Model) (id : TypeId) :
    m.parents id = (m.members id).parents.values := by
  rw [parents, members]
  cases m.scope? id <;> rfl

def HasParentNamed (m : Model) (id : TypeId) (name : String) : Prop :=
  (m.members id).parents.contains name = true

structure MayDerive (m : Model) (id base : TypeId) : Prop where
  isClass : (m.node id).isClass = true
  isRecord : (m.node base).isRecord = true
  apart : (decide (base = id) || m.derivesFrom base id) = false

def unchecked (m : Model) (id : TypeId) : Model :=
  m.modifyNode id fun node => { node with checkType := false }

/-- The model in which the base is a parent of the class, under the name that it has. -/
def derived (m : Model) (id base : TypeId) : Model :=
  (m.unchecked base).modifyNode id
    (·.mapScope fun s => { s with parents := s.parents.insert (m.node base).name base })

structure AddsParent (m : Model) (action : Action) (id base : TypeId) : Prop extends
    MayDerive m id base where
  eq : action = .addParent id base
  free : ¬ m.HasParentNamed id (m.node base).name

theorem any_scope_contains (m : Model) (id : TypeId) (name : String) :
    ((m.scope? id).any fun s => s.parents.contains name) =
      (m.members id).parents.contains name := by
  rw [members]
  cases m.scope? id <;> rfl

theorem addParent_eq_ok (h : m.MayDerive id base)
    (hfree : ¬ m.HasParentNamed id (m.node base).name) :
    addParent id base m = .ok () (m.derived id base) := by
  rw [HasParentNamed, Bool.not_eq_true] at hfree
  unfold addParent
  rw [ModelM.bind_apply, ModelM.get_apply]
  dsimp only
  rw [h.isClass, h.isRecord, h.apart, any_scope_contains, hfree]
  rfl

theorem addParent_eq_duplicate (h : m.MayDerive id base)
    (htaken : m.HasParentNamed id (m.node base).name) :
    addParent id base m =
      .error (.duplicateDeclaration "parent class" (m.node base).name (m.fullName id)) m := by
  rw [HasParentNamed] at htaken
  unfold addParent
  rw [ModelM.bind_apply, ModelM.get_apply]
  dsimp only
  rw [h.isClass, h.isRecord, h.apart, any_scope_contains, htaken]
  rfl

theorem addParent_eq_error (h : ¬ m.MayDerive id base) :
    ∃ failure, addParent id base m = .error failure m := by
  unfold addParent
  rw [ModelM.bind_apply, ModelM.get_apply]
  dsimp only
  cases hclass : (m.node id).isClass with
  | false => exact ⟨_, rfl⟩
  | true =>
    cases hrecord : (m.node base).isRecord with
    | false => exact ⟨_, rfl⟩
    | true =>
      cases hapart : decide (base = id) || m.derivesFrom base id with
      | true => exact ⟨_, rfl⟩
      | false => exact absurd ⟨hclass, hrecord, hapart⟩ h

theorem after_of_addsParent {action : Action} (h : AddsParent m action id base) :
    action.run.after m = m.derived id base := by
  have hrun : addParent id base m = _ := addParent_eq_ok h.toMayDerive h.free
  rw [h.eq, Action.run, ModelM.after, hrun]

theorem keepsParents_of_not_addsParent {action : Action} (ha : action.Admissible p m)
    (h : ∀ id base, ¬ AddsParent m action id base) :
    KeepsParents (fun id => ∃ name, action = .renameType id name) m (action.run.after m) := by
  by_cases hparent : ∃ id base, action = .addParent id base
  · obtain ⟨id, base, rfl⟩ := hparent
    have hsame : ∃ failure, addParent id base m = .error failure m := by
      by_cases hmay : m.MayDerive id base
      · by_cases htaken : m.HasParentNamed id (m.node base).name
        · exact ⟨_, addParent_eq_duplicate hmay htaken⟩
        · exact absurd ⟨hmay, rfl, htaken⟩ (h id base)
      · exact addParent_eq_error hmay
    obtain ⟨failure, he⟩ := hsame
    rw [Action.run, ModelM.after, he]
    exact .refl m
  · exact .action ha fun id base he => hparent ⟨id, base, he⟩

theorem name_derived (id base j : TypeId) :
    ((m.derived id base).node j).name = (m.node j).name := by
  refine (rel_modifyNode (R := fun a b => b.name = a.name) (fun _ => rfl) ?_ j).trans ?_
  · exact TypeNode.name_mapScope _ _
  · exact rel_modifyNode (R := fun a b => b.name = a.name) (fun _ => rfl) rfl j

theorem members_unchecked (base s : TypeId) : (m.unchecked base).members s = m.members s :=
  rel_modifyNode (R := fun a b => b.scope?.getD {} = a.scope?.getD {}) (fun _ => rfl) rfl s

theorem parents_derived_of_ne {s : TypeId} (hs : s ≠ id) :
    ((m.derived id base).members s).parents = (m.members s).parents := by
  rw [derived, members_modifyScope_of_ne hs, members_unchecked]

theorem parents_derived (h : m.MayDerive id base) :
    ((m.derived id base).members id).parents =
      (m.members id).parents.insert (m.node base).name base := by
  have hsame : ((m.unchecked base).node id).isContainer = (m.node id).isContainer :=
    rel_modifyNode (R := fun a b => b.isContainer = a.isContainer) (fun _ => rfl) rfl id
  have hc : ((m.unchecked base).node id).isContainer = true := by
    rw [hsame, TypeNode.isContainer_eq, TypeNode.isRecord, h.isClass]
    simp
  rw [derived, members_modifyScope hc, members_unchecked]

theorem values_derived (h : m.MayDerive id base)
    (hfree : ¬ m.HasParentNamed id (m.node base).name) :
    (m.derived id base).parents id = m.parents id ++ [base] := by
  have hnone : (m.members id).parents.get? (m.node base).name = none := by
    rwa [HasParentNamed, OrderedMap.contains, Bool.not_eq_true, Option.isSome_eq_false_iff,
      Option.isNone_iff_eq_none] at hfree
  rw [parents_eq_values, parents_eq_values, parents_derived h, OrderedMap.values,
    OrderedMap.entries_insert_of_get?_eq_none hnone, List.map_append]
  rfl

theorem parents_create {config : Config} (h : create config = .ok m) (s : TypeId) :
    (m.members s).parents = .empty := by
  obtain ⟨root, hroot, hkeeps⟩ := (KeepsParents.coversEdits fun _ => False).create h
  rw [hkeeps.parents, members]
  cases hs : root.scope? s with
  | none => rfl
  | some members =>
    rw [scope?_rootOnly hroot hs]
    rfl

theorem Reachable.parent_isRecord (h : Reachable p m) {parent : TypeId}
    (hd : m.Derives id parent) : (m.node parent).isRecord = true := by
  induction h generalizing id parent with
  | created _ new =>
    rw [Derives, parents_eq_values, parents_create new] at hd
    cases hd
  | @step m before action admissible ih =>
    have hkept : ∀ {parent}, (m.node parent).isRecord = true →
        ((action.run.after m).node parent).isRecord = true := fun {parent} hr => by
      have hk : m.Knows parent :=
        knows_of_isContainer (by rw [TypeNode.isContainer_eq, hr, Bool.or_true])
      rw [((does_action before.sound admissible).run.sameKind hk).isRecord, hr]
    by_cases hadds : ∃ id base, AddsParent m action id base
    · obtain ⟨id', base, hadds⟩ := hadds
      rw [Derives, after_of_addsParent hadds] at hd
      by_cases hid : id = id'
      · subst hid
        rw [values_derived hadds.toMayDerive hadds.free] at hd
        obtain hd | hd := List.mem_append.mp hd
        · exact hkept (ih hd)
        · exact hkept (List.mem_singleton.mp hd ▸ hadds.isRecord)
      · rw [parents_eq_values, parents_derived_of_ne hid, ← parents_eq_values] at hd
        exact hkept (ih hd)
    · have hkeeps := keepsParents_of_not_addsParent admissible fun id base h =>
        hadds ⟨id, base, h⟩
      rw [Derives, parents_eq_values, hkeeps.parents, ← parents_eq_values] at hd
      exact hkept (ih hd)

theorem Reachable.mayDerive (h : Reachable p m) (hd : m.Derives id base) : m.MayDerive id base where
  isClass := h.onlyClassesDerive id base hd
  isRecord := h.parent_isRecord hd
  apart := by
    have hacyclic := h.lineage.acyclic
    rw [Bool.or_eq_false_iff, decide_eq_false_iff_not, ← Bool.not_eq_true,
      h.lineage.derivesFrom_iff]
    refine ⟨?_, fun hback => hacyclic id (.head hd hback)⟩
    rintro rfl
    exact hacyclic base (.single hd)

/-- The operation adds a parent that the class has, and no parent of the class was entered under the
name of that one. -/
def AddsAgain (m : Model) (action : Action) : Prop :=
  ∃ id base, action = .addParent id base ∧ base ∈ m.parents id ∧
    ¬ m.HasParentNamed id (m.node base).name

theorem Reachable.parents_nodup_step (h : Reachable p m) {action : Action}
    (ha : action.Admissible p m) :
    (∀ id, ((action.run.after m).parents id).Nodup) ↔
      (∀ id, (m.parents id).Nodup) ∧ ¬ AddsAgain m action := by
  by_cases hadds : ∃ id base, AddsParent m action id base
  · obtain ⟨id, base, hadds⟩ := hadds
    have hagain : AddsAgain m action ↔ base ∈ m.parents id := by
      refine ⟨?_, fun hmem => ⟨id, base, hadds.eq, hmem, hadds.free⟩⟩
      rintro ⟨id', base', heq, hmem, -⟩
      obtain ⟨rfl, rfl⟩ := Action.addParent.inj (hadds.eq.symm.trans heq)
      exact hmem
    have hothers : ∀ s, s ≠ id → (m.derived id base).parents s = m.parents s := fun s hs => by
      rw [parents_eq_values, parents_derived_of_ne hs, ← parents_eq_values]
    rw [after_of_addsParent hadds, hagain]
    constructor
    · intro hall
      have hid := hall id
      rw [values_derived hadds.toMayDerive hadds.free, List.nodup_append_comm,
        List.singleton_append, List.nodup_cons] at hid
      refine ⟨fun s => ?_, hid.1⟩
      by_cases hs : s = id
      · exact hs ▸ hid.2
      · exact hothers s hs ▸ hall s
    · rintro ⟨hall, hnew⟩ s
      by_cases hs : s = id
      · rw [hs, values_derived hadds.toMayDerive hadds.free, List.nodup_append_comm,
          List.singleton_append, List.nodup_cons]
        exact ⟨hnew, hall id⟩
      · rw [hothers s hs]
        exact hall s
  · have hkeeps := keepsParents_of_not_addsParent ha fun id base h => hadds ⟨id, base, h⟩
    have hsame : (action.run.after m).parents = m.parents := by
      funext s
      rw [parents_eq_values, hkeeps.parents, ← parents_eq_values]
    have hnot : ¬ AddsAgain m action := by
      rintro ⟨id, base, heq, hmem, hfree⟩
      exact hadds ⟨id, base, h.mayDerive hmem, heq, hfree⟩
    rw [hsame]
    exact (and_iff_left hnot).symm

def ParentsNamed (m : Model) : Prop :=
  ∀ id name base, (m.members id).parents.get? name = some base → (m.node base).name = name

theorem derives_of_get? {name : String} (h : (m.members id).parents.get? name = some base) :
    m.Derives id base := by
  rw [Derives, parents_eq_values]
  exact OrderedMap.mem_values_of_get? h

theorem ParentsNamed.step (hn : m.ParentsNamed) (h : Reachable p m) {action : Action}
    (ha : action.Admissible p m)
    (hkept : ∀ id base name, base ∈ m.parents id → action ≠ .renameType base name) :
    (action.run.after m).ParentsNamed := by
  intro s name parent hget
  by_cases hadds : ∃ id base, AddsParent m action id base
  · obtain ⟨id, base, hadds⟩ := hadds
    rw [after_of_addsParent hadds] at hget ⊢
    rw [name_derived]
    by_cases hs : s = id
    · rw [hs, parents_derived hadds.toMayDerive, OrderedMap.get?_insert] at hget
      split at hget
      · next heq =>
        obtain rfl := Option.some.inj hget
        exact heq
      · exact hn id name parent hget
    · rw [parents_derived_of_ne hs] at hget
      exact hn s name parent hget
  · have hkeeps := keepsParents_of_not_addsParent ha fun id base h => hadds ⟨id, base, h⟩
    rw [hkeeps.parents] at hget
    have hderives := derives_of_get? hget
    rw [hkeeps.name parent (h.lineage.parent_known hderives)]
    · exact hn s name parent hget
    · rintro ⟨name', heq⟩
      exact hkept s parent name' hderives heq

theorem ParentsNamed.nodup (hn : m.ParentsNamed) (id : TypeId) : (m.parents id).Nodup := by
  rw [parents_eq_values]
  refine List.Nodup.map_on ?_ (List.Nodup.of_map _ (m.members id).parents.nodup)
  -- entries of one type have one name
  rintro ⟨name, base⟩ he ⟨name', base'⟩ he' rfl
  have hname := hn id name base (OrderedMap.get?_eq_some_iff.mpr he)
  have hname' := hn id name' base (OrderedMap.get?_eq_some_iff.mpr he')
  rw [← hname, ← hname']

theorem ParentsNamed.hasParentNamed (hn : m.ParentsNamed) (hd : base ∈ m.parents id) :
    m.HasParentNamed id (m.node base).name := by
  rw [parents_eq_values] at hd
  obtain ⟨⟨name, base'⟩, he, rfl⟩ := List.mem_map.mp hd
  have hget := OrderedMap.get?_eq_some_iff.mpr he
  rw [hn id name _ hget, HasParentNamed, OrderedMap.contains, hget]
  rfl

/-- In a history, a class comes to list a parent twice exactly when a parent that it has is added
again while no parent of it was entered under the name that this one has. At any time a parent that
the class has is refused as a duplicate if one of the parents was entered under its name, and listed
once more otherwise. So if no type is renamed while it is a parent, the parents of every class stay
pairwise different, and each of them is refused, whatever is moved, deleted or renamed besides. -/
theorem History.parents_nodup_iff (h : History p steps m) :
    ((∀ id, (m.parents id).Nodup) ↔ ∀ step ∈ steps, ¬ AddsAgain step.1 step.2) ∧
    (∀ id base, base ∈ m.parents id →
      (m.HasParentNamed id (m.node base).name → addParent id base m =
        .error (.duplicateDeclaration "parent class" (m.node base).name (m.fullName id)) m) ∧
      (¬ m.HasParentNamed id (m.node base).name → ∃ m', addParent id base m = .ok () m' ∧
        m'.parents id = m.parents id ++ [base])) ∧
    ((∀ step ∈ steps, ∀ id base name, base ∈ step.1.parents id →
        step.2 ≠ .renameType base name) →
      (∀ id, (m.parents id).Nodup) ∧
      ∀ id base, base ∈ m.parents id → addParent id base m =
        .error (.duplicateDeclaration "parent class" (m.node base).name (m.fullName id)) m) := by
  refine ⟨?_, fun id base hd => ⟨?_, fun hfree => ?_⟩, fun hkept => ?_⟩
  · induction h with
    | created _ new =>
      refine iff_of_true (fun id => ?_) (List.forall_mem_nil _)
      rw [parents_eq_values, parents_create new]
      exact List.nodup_nil
    | step before action admissible ih =>
      rw [before.reachable.parents_nodup_step admissible, ih, List.forall_mem_append,
        List.forall_mem_singleton]
  · exact addParent_eq_duplicate (h.reachable.mayDerive hd)
  · have hmay := h.reachable.mayDerive hd
    exact ⟨_, addParent_eq_ok hmay hfree, values_derived hmay hfree⟩
  · have hnamed : m.ParentsNamed := by
      induction h with
      | created _ new =>
        intro id name base hget
        rw [parents_create new] at hget
        cases hget
      | step before action admissible ih =>
        obtain ⟨hbefore, hlast⟩ := List.forall_mem_append.mp hkept
        exact (ih hbefore).step before.reachable admissible (hlast _ (List.mem_singleton_self _))
    exact ⟨hnamed.nodup, fun id base hd =>
      addParent_eq_duplicate (h.reachable.mayDerive hd) (hnamed.hasParentNamed hd)⟩

def derivation : List Action :=
  [.addType .root (declaration .classType "" "A") true,
   .addType .root (declaration .classType "" "D") true,
   .addType .root (declaration .namespaceType "" "n") true, .addParent ⟨2⟩ ⟨1⟩]

theorem history_derivation {actions : List Action}
    (ha : ∀ action ∈ actions, ∀ m, action.Admissible .free m) :
    History .free (bare.stepsOf (derivation ++ actions))
      (bare.afterAll (derivation ++ actions)) := by
  rw [← List.nil_append (bare.stepsOf _)]
  refine history_bare.afterAll (List.forall_mem_append.mpr ⟨?_, ha⟩)
  simp only [derivation, List.forall_mem_cons, List.not_mem_nil, false_imp_iff, implies_true,
    and_true]
  exact ⟨fun _ => isFresh_declaration nofun nofun, fun _ => isFresh_declaration nofun nofun,
    fun _ => isFresh_declaration nofun nofun, fun _ => trivial⟩

/-- The class `A` is moved into `n`, and then `D` is renamed to `B`. Still `B` cannot derive from
`n::A` once more. -/
theorem parents_nodup_iff_of_moved : ∃ steps m, History .free steps m ∧
    m.owner? ⟨1⟩ = some ⟨3⟩ ∧ ⟨1⟩ ∈ m.parents ⟨2⟩ ∧ (∀ id, (m.parents id).Nodup) ∧
    addParent ⟨2⟩ ⟨1⟩ m = .error (.duplicateDeclaration "parent class" "A" "B") m := by
  let actions := derivation ++ [.moveType ⟨1⟩ ⟨3⟩]
  have hmoved : History .free (bare.stepsOf actions) (bare.afterAll actions) :=
    history_derivation fun action ha m => by
      rw [List.mem_singleton.mp ha]
      trivial
  have h := hmoved.step (.renameType ⟨2⟩ "B") (admissible_rename _ _)
  obtain ⟨m, hm⟩ : ∃ m, m = (Action.renameType ⟨2⟩ "B").run.after (bare.afterAll actions) :=
    ⟨_, rfl⟩
  rw [← hm] at h
  obtain ⟨howner, hlisted, hbase, hclass⟩ : m.owner? ⟨1⟩ = some ⟨3⟩ ∧ ⟨1⟩ ∈ m.parents ⟨2⟩ ∧
      (m.node ⟨1⟩).name = "A" ∧ m.fullName ⟨2⟩ = "B" := by
    rw [hm]
    decide +kernel
  have hother : ∀ id, ⟨2⟩ ∉ (bare.afterAll actions).parents id := by
    rintro ⟨i⟩ hmem
    obtain ⟨members, hs, -⟩ := mem_parents_iff.mp hmem
    have hsize : (bare.afterAll actions).size = 4 := by decide +kernel
    have hi : i < 4 := hsize ▸ knows_of_scope hs
    have hnone : ∀ i < 4, ⟨2⟩ ∉ (bare.afterAll actions).parents ⟨i⟩ := by decide +kernel
    exact hnone i hi hmem
  obtain ⟨-, -, hlaw⟩ := h.parents_nodup_iff
  obtain ⟨hnodup, hrefused⟩ := hlaw (by
    refine List.forall_mem_append.mpr ⟨fun step hstep id base name _ he => ?_, ?_⟩
    · have hmem := snd_mem_of_mem_stepsOf hstep
      rw [he] at hmem
      simp [actions, derivation] at hmem
    · rw [List.forall_mem_singleton]
      rintro id _ _ hmem ⟨⟩
      exact hother id hmem)
  have hduplicate := hrefused ⟨2⟩ ⟨1⟩ hlisted
  rw [hbase, hclass] at hduplicate
  exact ⟨_, m, h, howner, hlisted, hnodup, hduplicate⟩

/-- The class `A` is renamed to `B` while `D` derives from it. Then `D` derives from `B` again. -/
theorem parent_listed_twice_after_rename : ∃ m m', Reachable .free m ∧ ⟨1⟩ ∈ m.parents ⟨2⟩ ∧
    addParent ⟨2⟩ ⟨1⟩ m = .ok () m' ∧ Reachable .free m' ∧ m'.parents ⟨2⟩ = [⟨1⟩, ⟨1⟩] := by
  let m := bare.afterAll (derivation ++ [.renameType ⟨1⟩ "B"])
  have h : Reachable .free m := by
    refine (history_derivation fun action ha m => ?_).reachable
    rw [List.mem_singleton.mp ha]
    exact admissible_rename _ m
  have hlisted : ⟨1⟩ ∈ m.parents ⟨2⟩ := by decide +kernel
  have hfree : ¬ m.HasParentNamed ⟨2⟩ (m.node ⟨1⟩).name := by
    unfold HasParentNamed
    decide +kernel
  have hadded := addParent_eq_ok (h.mayDerive hlisted) hfree
  have hstep := h.step (.addParent ⟨2⟩ ⟨1⟩) trivial
  rw [Action.run, ModelM.after, hadded] at hstep
  exact ⟨m, _, h, hlisted, hadded, hstep, by decide +kernel⟩

end Model

end ApiModel
