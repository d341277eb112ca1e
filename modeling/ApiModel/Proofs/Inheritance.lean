import ApiModel.Proofs.Origins
import ApiModel.Proofs.Reachable
import ApiModel.Proofs.Scopes

/-!
What a class inherits. No class is its own ancestor, so the flattened tables of the parents
determine that of the class; seen at one signature they are lists of origins, which are taken over
in order.
-/

namespace ApiModel

open Relation

namespace Model

variable {p : Policy} {m m' : Model} {id base parent s : TypeId}

def Derives (m : Model) (id parent : TypeId) : Prop := parent ∈ m.parents id

theorem mem_parents_iff :
    parent ∈ m.parents id ↔ ∃ a, m.scope? id = some a ∧ parent ∈ a.parents.values := by
  unfold parents
  cases m.scope? id <;> simp

theorem derivesWithin_of_transGen {rank : TypeId → Nat} {bound : Nat}
    (hr : IsRank m.Derives bound rank) {a b : TypeId} (h : TransGen m.Derives a b) {levels : Nat}
    (hl : rank a < levels) : m.derivesWithin b levels a = true := by
  induction h using TransGen.head_induction_on generalizing levels with
  | single hab =>
    obtain ⟨levels, rfl⟩ : ∃ n, levels = n + 1 := ⟨levels - 1, by omega⟩
    rw [derivesWithin, List.any_eq_true]
    exact ⟨b, hab, by simp⟩
  | @head a c hac _ ih =>
    have hlt := hr.lt hac
    obtain ⟨levels, rfl⟩ : ∃ n, levels = n + 1 := ⟨levels - 1, by omega⟩
    rw [derivesWithin, List.any_eq_true]
    have hrest : m.derivesWithin b levels c = true := ih (by omega)
    exact ⟨c, hac, by simp [hrest]⟩

/-- What holds of parents and of the operations that scopes declare themselves. -/
structure Lineage (p : Policy) (m : Model) : Prop where
  acyclic : Acyclic m.Derives
  parent_known : ∀ {id parent}, m.Derives id parent → m.Knows parent
  grouped : ∀ s a, m.scope? s = some a → a.operations.Grouped
  /-- A fresh operation is stored with the scope as its origin, and without a mark. -/
  own : p.freshOperations → ∀ s a, m.scope? s = some a →
    ∀ op ∈ a.operations.toList, op.origin = ⟨some s, false⟩

namespace Lineage

theorem exists_rank (h : Lineage p m) : ∃ rank, IsRank m.Derives m.size rank :=
  h.acyclic.exists_rank h.parent_known

/-- The check for ancestors sees all of them. -/
theorem not_reflTransGen (h : Lineage p m) (hne : base ≠ id)
    (hd : m.derivesFrom base id = false) : ¬ ReflTransGen m.Derives base id := fun hb => by
  obtain ⟨rank, hr⟩ := h.exists_rank
  obtain rfl | hb := reflTransGen_iff_eq_or_transGen.mp hb
  · exact hne rfl
  · rw [derivesFrom, derivesWithin_of_transGen hr hb (Nat.lt_succ_of_le (hr.le base))] at hd
    cases hd

end Lineage

theorem parents_modifyScope {f : Scope → Scope} (hf : ∀ a, (f a).parents = a.parents) :
    (m.modifyNode id (·.mapScope f)).parents = m.parents := by
  funext s
  by_cases hs : s = id
  · subst hs
    rw [parents, parents, scope?_modifyScope_self]
    cases m.scope? s <;> simp [hf]
  · rw [parents, parents, scope?_modifyScope_of_ne _ hs]

theorem parents_allocated {node : TypeNode} (hn : node.IsBlank) :
    (m.allocated node).parents = m.parents := by
  funext s
  by_cases hs : s = m.next
  · have hold : m.scope? s = none := by rw [hs, scope?, node_of_not_knows not_knows_next]; rfl
    have hnew : (m.allocated node).scope? s = node.scope? := by rw [hs, scope?, node_allocated_next]
    rw [parents, parents, hold, hnew]
    cases hsc : node.scope? with
    | none => rfl
    | some a => rw [hn.members a hsc]; rfl
  · rw [parents, parents, scope?, scope?, node_allocated_of_ne hs]

theorem parents_linked (scope id : TypeId) : (m.linked scope id).parents = m.parents := by
  have hentered : ((m.claimed scope id).entered scope id).parents = m.parents := by
    rw [entered, parents_modifyScope fun a => ?_]
    · exact parents_congr fun s => scope?_modifyEntity _ _
    · unfold Scope.enterType
      split <;> rfl
  rw [← hentered]
  funext s
  have hmap := ((repathed_refreshPaths id ((m.claimed scope id).entered scope id)).node
    s).map_scope?_eq (g := Scope.parents) fun _ _ => rfl
  have hparents : ∀ m : Model,
      m.parents s = (((m.node s).scope?).map Scope.parents).elim [] OrderedMap.values := fun m => by
    rw [parents, scope?]
    cases (m.node s).scope? <;> rfl
  rw [hparents, hparents ((m.claimed scope id).entered scope id), ← hmap]
  rfl

/-- At most one parent is added, to a class, and it does not derive from the class. -/
theorem Change.parents_cases (h : Change p m m') : m'.parents = m.parents ∨
    ∃ id base, (m.node id).isClass = true ∧
      (∀ a b, m'.Derives a b → m.Derives a b ∨ a = id ∧ b = base) ∧ m.Knows base ∧
      base ≠ id ∧ m.derivesFrom base id = false := by
  cases h with
  | declared fresh => exact .inl (parents_allocated fresh.toIsBlank)
  | specialized =>
    exact .inl (parents_allocated ⟨rfl, fun scope hs => by cases hs; rfl, rfl⟩)
  | annotated same => exact .inl (parents_congr fun s => (rel_modifyNode .refl same s).scope)
  | released =>
    refine .inl ?_
    rw [Model.released, parents_congr fun s => scope?_modifyEntity _ _]
    exact parents_modifyScope fun _ => rfl
  | named | stranded => exact .inl (parents_congr fun s => scope?_modifyEntity _ _)
  | linked => exact .inl (parents_linked _ _)
  | typedefAdded | operationAdded | constantAdded | attributeAdded =>
    exact .inl (parents_modifyScope fun _ => rfl)
  | usedAdded =>
    refine .inl (parents_modifyScope fun a => ?_)
    unfold Scope.use
    split <;> rfl
  | consulted => exact .inl rfl
  | @parentAdded id base isClass isRecord other apart =>
    refine .inr ⟨id, base, isClass, fun a b hab => ?_, ?_, other, apart⟩
    · obtain ⟨members, hs, hb⟩ := mem_parents_iff.mp hab
      by_cases ha : a = id
      · subst ha
        rw [withParent, scope?_modifyScope_self] at hs
        obtain ⟨members', hs', rfl⟩ := Option.map_eq_some_iff.mp hs
        obtain rfl | hb := OrderedMap.mem_values_insert hb
        · exact .inr ⟨rfl, rfl⟩
        · exact .inl (mem_parents_iff.mpr ⟨members', hs', hb⟩)
      · rw [withParent, scope?_modifyScope_of_ne _ ha] at hs
        exact .inl (mem_parents_iff.mpr ⟨members, hs, hb⟩)
    · refine knows_of_isContainer ?_
      rw [TypeNode.isContainer_eq, isRecord, Bool.or_true]

theorem ScopeStep.operations_cases {a b : Scope} (h : ScopeStep p m s a b) :
    b.operations = a.operations ∨
    (∃ path, b.operations = a.operations.map (·.mapEntity (·.setScopePath path))) ∨
    ∃ op, p.Takes op ∧
      b.operations = a.operations.insert m.libraryPrefix (m.ownedOperation s op) := by
  cases h with
  | typeEntered =>
    left
    unfold Scope.enterType
    split <;> rfl
  | pathsWritten path => exact .inr (.inl ⟨path, rfl⟩)
  | operationAdded taken => exact .inr (.inr ⟨_, taken, rfl⟩)
  | usedAdded =>
    left
    unfold Scope.use
    split <;> rfl
  | _ => exact .inl rfl

theorem Change.lineage (h : Change p m m') (hl : Lineage p m) : Lineage p m' := by
  have hscopes : ∀ s a, m'.scope? s = some a → a.operations.Grouped ∧ (p.freshOperations →
      ∀ op ∈ a.operations.toList, op.origin = ⟨some s, false⟩) := by
    refine h.forall_scope (P := fun s a => a.operations.Grouped ∧ (p.freshOperations →
      ∀ op ∈ a.operations.toList, op.origin = ⟨some s, false⟩)) (fun s => ?_) ?_ ?_
    · exact ⟨OperationTable.grouped_empty, fun _ _ hop => by cases hop⟩
    · intro s a b ⟨hgrouped, hown⟩ hstep
      obtain he | ⟨path, he⟩ | ⟨op, htaken, he⟩ := hstep.operations_cases
      · rw [he]
        exact ⟨hgrouped, hown⟩
      · rw [he]
        refine ⟨hgrouped.map fun _ => rfl, fun hp op hop => ?_⟩
        rw [OperationTable.toList_map] at hop
        obtain ⟨op', hop', rfl⟩ := List.mem_map.mp hop
        exact hown hp op' hop'
      · rw [he]
        refine ⟨hgrouped.push _, fun hp op' hop => ?_⟩
        obtain rfl | hop := OperationTable.mem_toList_insert hop
        · obtain ⟨hbase, hflag⟩ := htaken hp
          rw [(a.operations.sameDeclaration_stored _ _).origin_eq]
          simp [ownedOperation, Operation.origin, hbase, hflag]
        · exact hown hp op' hop
    · exact fun s a hs => ⟨hl.grouped s a hs, fun hp => hl.own hp s a hs⟩
  have hknows : ∀ {id}, m.Knows id → m'.Knows id := fun hk => lt_of_lt_of_le hk h.size_le
  obtain hsame | ⟨id, base, -, hedge, hk, hne, hd⟩ := h.parents_cases
  · have hderives : m'.Derives = m.Derives := by
      funext a b
      rw [Derives, Derives, hsame]
    exact {
      acyclic := hderives ▸ hl.acyclic
      parent_known := fun hd => hknows (hl.parent_known (hderives ▸ hd))
      grouped := fun s a hs => (hscopes s a hs).1
      own := fun hp s a hs => (hscopes s a hs).2 hp }
  · exact {
      acyclic := hl.acyclic.add_edge hedge (hl.not_reflTransGen hne hd)
      parent_known := fun hd => by
        obtain hd | ⟨-, rfl⟩ := hedge _ _ hd
        · exact hknows (hl.parent_known hd)
        · exact hknows hk
      grouped := fun s a hs => (hscopes s a hs).1
      own := fun hp s a hs => (hscopes s a hs).2 hp }

theorem lineage_rootOnly {config : Config} (h : rootOnly config = .ok m) : Lineage p m := by
  have hnone : ∀ {a b}, ¬ m.Derives a b := fun {a b} hab => by
    obtain ⟨members, hs, hb⟩ := mem_parents_iff.mp hab
    rw [scope?_rootOnly h hs] at hb
    cases hb
  refine ⟨fun a ha => ?_, fun hd => absurd hd hnone, fun s a hs => ?_, fun _ s a hs op hop => ?_⟩
  · obtain ⟨b, hab, -⟩ := TransGen.head'_iff.mp ha
    exact hnone hab
  · rw [scope?_rootOnly h hs]
    exact OperationTable.grouped_empty
  · rw [scope?_rootOnly h hs] at hop
    cases hop

theorem Reachable.lineage (h : Reachable p m) : Lineage p m :=
  h.induct (fun _ => lineage_rootOnly) fun _ hl hc => hc.lineage hl

section Recursion

variable {α : Type} {step : (TypeId → α) → TypeId → α} {level : Nat → TypeId → α} {f : TypeId → α}

def AsksParents (m : Model) (step : (TypeId → α) → TypeId → α) : Prop :=
  ∀ f g id, (∀ parent, m.Derives id parent → f parent = g parent) → step f id = step g id

/-- More levels than there are below a class do not change its value. -/
theorem level_eq {rank : TypeId → Nat} {bound : Nat} (hr : IsRank m.Derives bound rank)
    (hstep : m.AsksParents step) (hlevel : ∀ n id, level (n + 1) id = step (level n) id)
    {levels levels' : Nat} (hl : rank id < levels) (hl' : rank id < levels') :
    level levels id = level levels' id := by
  induction levels generalizing levels' id with
  | zero => omega
  | succ levels ih =>
    obtain ⟨levels', rfl⟩ : ∃ n, levels' = n + 1 := ⟨levels' - 1, by omega⟩
    rw [hlevel, hlevel]
    refine hstep _ _ id fun parent hp => ?_
    have hlt := hr.lt hp
    exact ih (by omega) (by omega)

/-- A recursion over the parents has one solution, which one level more than there are nodes
reaches. -/
theorem Lineage.solves_iff (h : Lineage p m) (hstep : m.AsksParents step)
    (hlevel : ∀ n id, level (n + 1) id = step (level n) id) :
    (∀ id, f id = step f id) ↔ f = level (m.size + 1) := by
  obtain ⟨rank, hr⟩ := h.exists_rank
  constructor
  · intro hf
    -- a solution agrees with every level that is above the rank of a class
    have hall : ∀ n id, rank id < n → f id = level n id := by
      intro n
      induction n with
      | zero => exact fun id hlt => absurd hlt (Nat.not_lt_zero _)
      | succ n ih =>
        intro id hlt
        rw [hf, hlevel]
        refine hstep _ _ id fun parent hp => ih parent ?_
        have hlt' := hr.lt hp
        omega
    exact funext fun id => hall _ id (Nat.lt_succ_of_le (hr.le id))
  · rintro rfl id
    refine (hlevel _ id).trans (hstep _ _ id fun parent hp => ?_)
    have hlt := hr.lt hp
    have hle := hr.le id
    exact level_eq hr hstep hlevel (by omega) (by omega)

end Recursion

def operationsOver (m : Model) (inherited : TypeId → OperationTable) (id : TypeId) :
    OperationTable :=
  match m.scope? id with
  | none => .empty
  | some a =>
    if (m.node id).isClass then
      (m.parents id).foldl
        (fun table parent => (inherited parent).toList.foldl (m.inherit id) table) a.operations
    else a.operations

theorem asksParents_operationsOver (m : Model) : m.AsksParents m.operationsOver := by
  intro f g id hfg
  unfold operationsOver
  split
  · rfl
  · split
    · exact List.foldl_ext _ _ _ fun table parent hp => by rw [hfg parent hp]
    · rfl

theorem operationTableTo_succ (m : Model) (levels : Nat) (id : TypeId) :
    m.operationTableTo (levels + 1) id = m.operationsOver (m.operationTableTo levels) id := by
  rw [operationTableTo, operationsOver, parents]
  cases m.scope? id <;> rfl

theorem Lineage.operationTable_iff (h : Lineage p m) {f : TypeId → OperationTable} :
    (∀ id, f id = m.operationsOver f id) ↔ f = m.operationTable :=
  h.solves_iff m.asksParents_operationsOver m.operationTableTo_succ

theorem operationTable_eq (h : Lineage p m) {a : Scope} (hs : m.scope? id = some a) :
    m.operationTable id = if (m.node id).isClass then
      (m.parents id).foldl (fun table parent =>
        (m.operationTable parent).toList.foldl (m.inherit id) table) a.operations
      else a.operations := by
  rw [h.operationTable_iff.mpr rfl id, operationsOver, hs]

theorem grouped_foldl_inherit {t : OperationTable} (h : t.Grouped) (ops : List Operation) :
    (ops.foldl (m.inherit id) t).Grouped := by
  induction ops generalizing t with
  | nil => exact h
  | cons op ops ih => exact ih (grouped_inherit h m id op)

theorem grouped_operationTable (h : Lineage p m) (id : TypeId) :
    (m.operationTable id).Grouped := by
  cases hs : m.scope? id with
  | none =>
    rw [operationTable, operationTableTo, hs]
    exact OperationTable.grouped_empty
  | some a =>
    rw [operationTable_eq h hs]
    have hown := h.grouped id a hs
    split
    · generalize m.parents id = parents
      generalize a.operations = t at hown
      induction parents generalizing t with
      | nil => exact hown
      | cons parent parents ih => exact ih _ (grouped_foldl_inherit hown _)
    · exact hown

theorem origins_foldl_inherit (ops : List Operation) (t : OperationTable) (op : Operation) :
    (ops.foldl (m.inherit id) t).origins op =
      ((ops.filter (·.SameSignature op)).map Operation.origin).foldl (addOrigin id)
        (t.origins op) := by
  induction ops generalizing t with
  | nil => rfl
  | cons c ops ih =>
    rw [List.foldl_cons, ih, origins_inherit, List.filter_cons]
    by_cases h : c.SameSignature op <;> simp [h]

/-- The origins that the parents of a class have of a signature, one parent after the other. -/
def inheritedOrigins (m : Model) (id : TypeId) (op : Operation) : List Origin :=
  (m.parents id).flatMap fun parent => (m.operationTable parent).origins op

theorem origins_operationTable (h : Lineage p m) {a : Scope} (hs : m.scope? id = some a)
    (hc : (m.node id).isClass = true) (op : Operation) :
    (m.operationTable id).origins op =
      (m.inheritedOrigins id op).foldl (addOrigin id) (a.operations.origins op) := by
  rw [operationTable_eq h hs, if_pos hc, inheritedOrigins]
  generalize a.operations = t
  generalize m.parents id = parents
  induction parents generalizing t with
  | nil => rfl
  | cons parent parents ih =>
    rw [List.foldl_cons, ih, origins_foldl_inherit, List.flatMap_cons, List.foldl_append,
      OperationTable.origins_eq_map_same (grouped_operationTable h parent)]
    rfl

theorem Lineage.origins_own (h : Lineage p m) (hp : p.freshOperations) {a : Scope}
    (hs : m.scope? id = some a) (op : Operation) :
    ∀ o ∈ a.operations.origins op, o = ⟨some id, false⟩ := by
  intro o ho
  obtain ⟨own, hown, rfl⟩ := List.mem_map.mp ho
  exact h.own hp id a hs own
    (OperationTable.mem_toList_of_mem_overloads (List.mem_filter.mp hown).1)

/-- The origins are the class itself and its ancestors, and those that have a rival are marked. -/
structure Traced (m : Model) (id : TypeId) (origins : List Origin) : Prop where
  base : ∀ o ∈ origins, ∃ base, o.base = some base ∧ ReflTransGen m.Derives id base
  settled : Settled origins

theorem Traced.own {origins : List Origin} (h : ∀ o ∈ origins, o = ⟨some id, false⟩) :
    m.Traced id origins where
  base o hmem := ⟨id, by rw [h o hmem], .refl⟩
  settled o hmem := by
    refine iff_of_false (by simp [h o hmem]) ?_
    rintro ⟨o', hmem', hne⟩
    exact hne (by rw [h o hmem, h o' hmem'])

/-- No class is its own ancestor, so nothing that is inherited comes from the class itself. -/
theorem Lineage.base_inheritedOrigins (h : Lineage p m) {op : Operation}
    (hparents : ∀ parent ∈ m.parents id, m.Traced parent ((m.operationTable parent).origins op))
    {o : Origin} (ho : o ∈ m.inheritedOrigins id op) :
    ∃ base, o.base = some base ∧ base ≠ id ∧ ReflTransGen m.Derives id base := by
  obtain ⟨parent, hpar, ho⟩ := List.mem_flatMap.mp ho
  obtain ⟨base, hb, hd⟩ := (hparents parent hpar).base o ho
  have hbelow : TransGen m.Derives id base := TransGen.head' hpar hd
  refine ⟨base, hb, ?_, hbelow.to_reflTransGen⟩
  rintro rfl
  exact h.acyclic base hbelow

theorem Lineage.traced_inherited (h : Lineage p m) {op : Operation}
    (hparents : ∀ parent ∈ m.parents id, m.Traced parent ((m.operationTable parent).origins op)) :
    m.Traced id ((m.inheritedOrigins id op).foldl (addOrigin id) []) := by
  have hid : ∀ o ∈ m.inheritedOrigins id op, o.base ≠ some id := by
    intro o ho he
    obtain ⟨base, hb, hne, -⟩ := h.base_inheritedOrigins hparents ho
    exact hne (Option.some.inj (hb.symm.trans he))
  refine ⟨fun o hmem => ?_, ?_⟩
  · obtain ⟨o', hmem', he⟩ := exists_of_mem_foldl_addOrigin hid hmem
    obtain ⟨base, hb, -, hd⟩ := h.base_inheritedOrigins hparents hmem'
    exact ⟨base, he ▸ hb, hd⟩
  · rw [inheritedOrigins, List.flatMap_def] at hid ⊢
    refine Settled.foldl_addOrigin (fun group hg => ?_) hid
    obtain ⟨parent, hpar, rfl⟩ := List.mem_map.mp hg
    exact (hparents parent hpar).settled

/-- Operations come from the class itself or its ancestors, and those that have a rival are
marked. -/
theorem Lineage.traced_operationTable (h : Lineage p m) (hp : p.freshOperations) (id : TypeId)
    (op : Operation) : m.Traced id ((m.operationTable id).origins op) := by
  obtain ⟨rank, hr⟩ := h.exists_rank
  induction hn : rank id using Nat.strong_induction_on generalizing id with
  | _ n ih =>
  cases hs : m.scope? id with
  | none =>
    have hnil : m.operationTable id = .empty := by rw [operationTable, operationTableTo, hs]
    rw [hnil]
    exact .own (by simp [OperationTable.origins])
  | some a =>
    have howned := h.origins_own hp hs op
    by_cases hc : (m.node id).isClass = true
    · rw [origins_operationTable h hs hc]
      cases ho : a.operations.origins op with
      | nil =>
        refine h.traced_inherited fun parent hpar => ?_
        exact ih (rank parent) (hn ▸ hr.lt (show m.Derives id parent from hpar)) parent rfl
      | cons first rest =>
        rw [ho] at howned
        have hbase : first.base = some id := by rw [howned first List.mem_cons_self]
        rw [foldl_addOrigin_of_own hbase]
        exact .own howned
    · rw [operationTable_eq h hs, if_neg hc]
      exact .own howned

def inheritedBases (m : Model) (id : TypeId) (op : Operation) : List (Option TypeId) :=
  (m.parents id).flatMap fun parent =>
    ((m.operationTable parent).same op).map Operation.baseClass

/-- The bases other than the first. -/
def otherBases (bases : List (Option TypeId)) : List (Option TypeId) :=
  bases.filter fun base => some base ≠ bases.head?

/-- The bases of which a class takes over the operation: each is compared with the first only. -/
def keptBases (bases : List (Option TypeId)) : List (Option TypeId) :=
  bases.head?.toList ++ otherBases bases

section

variable {bases : List (Option TypeId)} {kept : Option TypeId}

theorem mem_otherBases_cons {first : Option TypeId} :
    kept ∈ otherBases (first :: bases) ↔ kept ∈ bases ∧ kept ≠ first := by
  rw [otherBases, List.mem_filter, List.mem_cons]
  constructor
  · rintro ⟨rfl | h, hne⟩
    · simp at hne
    · exact ⟨h, by simpa using hne⟩
  · exact fun ⟨h, hne⟩ => ⟨.inr h, by simpa using hne⟩

theorem mem_keptBases : kept ∈ keptBases bases ↔ kept ∈ bases := by
  cases bases with
  | nil => rfl
  | cons first rest =>
    change kept ∈ first :: otherBases (first :: rest) ↔ _
    rw [List.mem_cons, List.mem_cons, mem_otherBases_cons]
    by_cases h : kept = first <;> simp [h]

theorem nodup_keptBases : (keptBases bases).Nodup ↔ (otherBases bases).Nodup := by
  cases bases with
  | nil => exact Iff.rfl
  | cons first rest =>
    change (first :: otherBases (first :: rest)).Nodup ↔ _
    rw [List.nodup_cons, mem_otherBases_cons]
    simp

/-- Two bases are kept exactly when some kept base differs from this one. -/
theorem two_le_length_keptBases (h : kept ∈ keptBases bases) :
    2 ≤ (keptBases bases).length ↔ ∃ other ∈ keptBases bases, other ≠ kept := by
  cases bases with
  | nil => cases h
  | cons first rest =>
    change 2 ≤ (first :: otherBases (first :: rest)).length ↔ ∃ other ∈ first :: _, _
    cases ho : otherBases (first :: rest) with
    | nil =>
      obtain rfl : kept = first := by
        change kept ∈ first :: otherBases (first :: rest) at h
        rw [ho] at h
        exact List.mem_singleton.mp h
      simp
    | cons second others =>
      have hsecond : second ≠ first := (mem_otherBases_cons.mp (ho ▸ List.mem_cons_self)).2
      refine iff_of_true (by simp) ?_
      by_cases he : kept = first
      · exact ⟨second, by simp, he ▸ hsecond⟩
      · exact ⟨first, by simp, Ne.symm he⟩

end

/-- The class has one operation for each origin among those of its parents, and these are marked if
there are several. -/
def FlattensOnce (m : Model) (id : TypeId) (op : Operation) : Prop :=
  (∀ base, (((m.operationTable id).same op).map Operation.baseClass).count base =
    if base ∈ m.inheritedBases id op then 1 else 0) ∧
  ∀ found ∈ (m.operationTable id).same op,
    found.ambiguous = true ↔ 2 ≤ ((m.operationTable id).same op).length

theorem inheritedBases_eq (h : Lineage p m) (id : TypeId) (op : Operation) :
    m.inheritedBases id op = (m.inheritedOrigins id op).map Origin.base := by
  rw [inheritedBases, inheritedOrigins, List.map_flatMap]
  congr 1
  funext parent
  rw [OperationTable.origins_eq_map_same (grouped_operationTable h parent), List.map_map]
  rfl

theorem map_baseClass_same (h : Lineage p m) (hp : p.freshOperations)
    (hc : (m.node id).isClass = true) {op : Operation}
    (hown : ∀ a, m.scope? id = some a → ∀ own ∈ a.operations.toList, ¬ own.SameSignature op) :
    ((m.operationTable id).same op).map Operation.baseClass =
      keptBases (m.inheritedBases id op) := by
  obtain ⟨a, hs⟩ := isContainer_iff.mp
    (by rw [TypeNode.isContainer_eq, TypeNode.isRecord, hc]; simp : (m.node id).isContainer = true)
  have hnone : a.operations.origins op = [] := by
    refine List.map_eq_nil_iff.mpr (List.filter_eq_nil_iff.mpr fun own hmem => ?_)
    simpa using hown a hs own (OperationTable.mem_toList_of_mem_overloads hmem)
  have hid : ∀ o ∈ m.inheritedOrigins id op, o.base ≠ some id := by
    intro o hmem he
    obtain ⟨parent, hpar, ho⟩ := List.mem_flatMap.mp hmem
    obtain ⟨base, hb, hd⟩ := (h.traced_operationTable hp parent op).base o ho
    obtain rfl := Option.some.inj (hb.symm.trans he)
    exact h.acyclic base (TransGen.head' hpar hd)
  have hmap : ((m.operationTable id).same op).map Operation.baseClass =
      ((m.operationTable id).origins op).map Origin.base := by
    rw [OperationTable.origins_eq_map_same (grouped_operationTable h id), List.map_map]
    rfl
  rw [hmap, origins_operationTable h hs hc, hnone, inheritedBases_eq h]
  cases hf : m.inheritedOrigins id op with
  | nil => rfl
  | cons first rest =>
    rw [hf] at hid
    have hkept : keptBases ((first :: rest).map Origin.base) =
        first.base :: (rest.filter (·.base ≠ first.base)).map Origin.base := by
      simp [keptBases, otherBases, List.filter_map, Function.comp_def]
    rw [List.foldl_cons, addOrigin, foldl_addOrigin first rest (hid first List.mem_cons_self),
      hkept]
    split
    · next hnil =>
      rw [hnil]
      rfl
    · simp [Origin.marked, Function.comp_def]

/-- A class has an inherited signature from the first base among those of its parents and, as often
as they come, from all bases that differ from it. Two or more operations are all marked. So the
class has each base once exactly when none but the first comes twice. -/
theorem Reachable.flattensOnce_iff (h : Reachable .operationsFresh m)
    (hc : (m.node id).isClass = true) {op : Operation}
    (hown : ∀ a, m.scope? id = some a → ∀ own ∈ a.operations.toList, ¬ own.SameSignature op) :
    ((m.operationTable id).same op).map Operation.baseClass = keptBases (m.inheritedBases id op) ∧
    (∀ found ∈ (m.operationTable id).same op,
      found.ambiguous = true ↔ 2 ≤ ((m.operationTable id).same op).length) ∧
    (m.FlattensOnce id op ↔ (otherBases (m.inheritedBases id op)).Nodup) := by
  have hbases := map_baseClass_same h.lineage trivial hc hown
  have hsettled := (h.lineage.traced_operationTable trivial id op).settled
  rw [OperationTable.origins_eq_map_same (grouped_operationTable h.lineage id)] at hsettled
  have hmarked : ∀ found ∈ (m.operationTable id).same op,
      found.ambiguous = true ↔ 2 ≤ ((m.operationTable id).same op).length := by
    intro found hf
    have hkept : found.baseClass ∈ keptBases (m.inheritedBases id op) :=
      hbases ▸ List.mem_map_of_mem hf
    rw [← List.length_map Operation.baseClass, hbases, two_le_length_keptBases hkept, ← hbases]
    refine (hsettled found.origin (List.mem_map_of_mem hf)).trans ?_
    simp [Operation.origin]
  refine ⟨hbases, hmarked, ?_⟩
  rw [← nodup_keptBases, FlattensOnce, hbases]
  constructor
  · rintro ⟨hcount, -⟩
    refine List.nodup_iff_count_le_one.mpr fun base => ?_
    rw [hcount]
    split <;> omega
  · intro hnodup
    refine ⟨fun base => ?_, hmarked⟩
    rw [hnodup.count]
    simp only [mem_keptBases]

def foo : Operation := { entity := { name := "foo" } }

/-- The classes `A`, `B`, `E` and `D`, of which `A` and `B` declare `foo` and `E` derives from `B`.
The class `D` gets the given parents. -/
def classes (parents : List TypeId) : List Action :=
  ["A", "B", "E", "D"].map (fun name => .addType .root (declaration .classType "" name) true) ++
    [.addOperation ⟨1⟩ foo, .addOperation ⟨2⟩ foo, .addParent ⟨3⟩ ⟨2⟩] ++
    parents.map (.addParent ⟨4⟩ ·)

theorem reachable_classes (parents : List TypeId) :
    Reachable .operationsFresh (bare.afterAll (classes parents)) := by
  refine reachable_bare.afterAll fun action ha m => ?_
  simp only [classes, List.mem_append, List.mem_map, List.mem_cons, List.not_mem_nil,
    or_false] at ha
  obtain (⟨name, -, rfl⟩ | rfl | rfl | rfl) | ⟨parent, -, rfl⟩ := ha
  · exact isFresh_declaration nofun nofun
  · exact fun _ => ⟨rfl, rfl⟩
  · exact fun _ => ⟨rfl, rfl⟩
  · trivial
  · trivial

theorem classes_own {parents : List TypeId} {a : Scope}
    (h : ((bare.afterAll (classes parents)).scope? ⟨4⟩).all (·.operations.toList.isEmpty) = true)
    (hs : (bare.afterAll (classes parents)).scope? ⟨4⟩ = some a) :
    ∀ own ∈ a.operations.toList, ¬ own.SameSignature foo := by
  rw [hs] at h
  simp [List.isEmpty_iff.mp h]

/-- The class `D` with the parents `B`, `E` and `A` has the `foo` of `B` once, though `E` has it
too. -/
theorem flattensOnce_of_first :
    ∃ m, Reachable .operationsFresh m ∧ m.FlattensOnce ⟨4⟩ foo ∧
      m.inheritedBases ⟨4⟩ foo = [some ⟨2⟩, some ⟨2⟩, some ⟨1⟩] := by
  have h := reachable_classes [⟨2⟩, ⟨3⟩, ⟨1⟩]
  have hbases : (bare.afterAll (classes [⟨2⟩, ⟨3⟩, ⟨1⟩])).inheritedBases ⟨4⟩ foo =
      [some ⟨2⟩, some ⟨2⟩, some ⟨1⟩] := by decide +kernel
  refine ⟨_, h, (h.flattensOnce_iff ?_ fun a hs => ?_).2.2.mpr (by rw [hbases]; decide), hbases⟩
  · decide +kernel
  · exact classes_own (by decide +kernel) hs

/-- With the parents `A`, `B` and `E` it has the `foo` of `B` twice. -/
theorem not_flattensOnce_of_second :
    ∃ m, Reachable .operationsFresh m ∧ (m.node ⟨4⟩).isClass = true ∧
      (∀ a, m.scope? ⟨4⟩ = some a → ∀ own ∈ a.operations.toList, ¬ own.SameSignature foo) ∧
      ((m.operationTable ⟨4⟩).same foo).map Operation.baseClass =
        [some ⟨1⟩, some ⟨2⟩, some ⟨2⟩] ∧ ¬ m.FlattensOnce ⟨4⟩ foo := by
  have hbases : ((bare.afterAll (classes [⟨1⟩, ⟨2⟩, ⟨3⟩])).operationTable ⟨4⟩ |>.same foo).map
      Operation.baseClass = [some ⟨1⟩, some ⟨2⟩, some ⟨2⟩] := by decide +kernel
  refine ⟨_, reachable_classes [⟨1⟩, ⟨2⟩, ⟨3⟩], by decide +kernel,
    fun a hs => classes_own (by decide +kernel) hs, hbases, fun ⟨hcount, _⟩ => ?_⟩
  have htwice := hcount (some ⟨2⟩)
  rw [hbases] at htwice
  split at htwice <;> simp at htwice

end Model

end ApiModel
