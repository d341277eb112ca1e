import ApiModel.Proofs.Inheritance

/-!
Ancestors of classes. No class is among its own ancestors, so walks over the parents of a class come
to an end, and a parent is refused for that reason exactly when it would close a cycle.
-/

namespace ApiModel

open Relation

namespace Model

variable {p : Policy} {m m' : Model} {id base ancestor : TypeId}

theorem transGen_of_derivesWithin {levels : Nat} (h : m.derivesWithin ancestor levels id = true) :
    TransGen m.Derives id ancestor := by
  induction levels generalizing id with
  | zero => cases h
  | succ levels ih =>
    rw [derivesWithin, List.any_eq_true] at h
    obtain ⟨parent, hparent, hreached⟩ := h
    rw [Bool.or_eq_true, decide_eq_true_eq] at hreached
    obtain rfl | hreached := hreached
    · exact .single hparent
    · exact .head hparent (ih hreached)

theorem Lineage.derivesFrom_iff (h : Lineage p m) :
    m.derivesFrom id ancestor = true ↔ TransGen m.Derives id ancestor := by
  obtain ⟨rank, hr⟩ := h.exists_rank
  exact ⟨transGen_of_derivesWithin,
    fun hd => derivesWithin_of_transGen hr hd (Nat.lt_succ_of_le (hr.le id))⟩

/-- A parent is refused for closing a cycle before it is refused for its name. -/
theorem addParent_eq_selfInheritance {text : String} :
    addParent id base m = .error (.selfInheritance text) m' ↔
      ((m.node id).isClass = true ∧ (m.node base).isRecord = true ∧
        (base = id ∨ m.derivesFrom base id = true)) ∧ text = m.fullName id ∧ m' = m := by
  have hcycle : (decide (base = id) || m.derivesFrom base id) = true ↔
      base = id ∨ m.derivesFrom base id = true := by
    rw [Bool.or_eq_true, decide_eq_true_eq]
  unfold addParent
  rw [ModelM.bind_apply, ModelM.get_apply, ← hcycle]
  dsimp only
  cases (m.node id).isClass with
  | false => simp
  | true =>
    cases (m.node base).isRecord with
    | false => simp
    | true =>
      cases decide (base = id) || m.derivesFrom base id with
      | true =>
        have hswap : m.fullName id = text ∧ m = m' ↔ text = m.fullName id ∧ m' = m :=
          and_congr eq_comm eq_comm
        simpa using hswap
      | false =>
        cases (m.scope? id).any fun s => s.parents.contains (m.node base).name <;> simp

theorem Lineage.wellFounded (h : Lineage p m) :
    WellFounded fun parent id => m.Derives id parent := by
  obtain ⟨rank, hr⟩ := h.exists_rank
  exact Subrelation.wf hr.lt (measure rank).wf

def derivesOver (m : Model) (ancestor : TypeId) (inherited : TypeId → Bool) (id : TypeId) : Bool :=
  (m.parents id).any fun parent => parent = ancestor || inherited parent

theorem Lineage.derivesFrom_unique (h : Lineage p m) {f : TypeId → Bool} :
    (∀ id, f id = m.derivesOver ancestor f id) ↔ f = (m.derivesFrom · ancestor) := by
  have hasks : m.AsksParents (m.derivesOver ancestor) := fun f g id hfg => by
    rw [derivesOver, derivesOver, Bool.eq_iff_iff, List.any_eq_true, List.any_eq_true]
    exact exists_congr fun parent => and_congr_right fun hp => by rw [hfg parent hp]
  have hlevel : ∀ levels id, m.derivesWithin ancestor (levels + 1) id =
      m.derivesOver ancestor (m.derivesWithin ancestor levels) id := fun _ _ => rfl
  exact h.solves_iff hasks hlevel

def attributesOver (m : Model) (inherited : TypeId → List Attribute) (id : TypeId) :
    List Attribute :=
  match m.scope? id with
  | none => []
  | some a =>
    (m.parents id).foldl
      (fun found parent => (inherited parent).foldl (m.inheritAttribute id) found)
      a.attributes.values

theorem Lineage.attributes_unique (h : Lineage p m) {f : TypeId → List Attribute} :
    (∀ id, f id = m.attributesOver f id) ↔ f = m.attributes := by
  have hasks : m.AsksParents m.attributesOver := fun f g id hfg => by
    unfold attributesOver
    split
    · rfl
    · exact List.foldl_ext _ _ _ fun found parent hp => by rw [hfg parent hp]
  have hlevel : ∀ levels id,
      m.attributesTo (levels + 1) id = m.attributesOver (m.attributesTo levels) id := by
    intro levels id
    rw [attributesTo, attributesOver, parents]
    cases m.scope? id <;> rfl
  exact h.solves_iff hasks hlevel

/-- The parents of classes form no cycle. So the recursions over them end, each with the one result
that satisfies its equation, and a parent is refused as a cycle exactly when it would make one: when
a class is asked to derive from itself or from a struct or class that derives from it. -/
theorem Reachable.inheritance_acyclic (h : Reachable p m) :
    Acyclic m.Derives ∧ (WellFounded fun parent id => m.Derives id parent) ∧
    (∀ ancestor f, (∀ id, f id = m.derivesOver ancestor f id) ↔ f = (m.derivesFrom · ancestor)) ∧
    (∀ f, (∀ id, f id = m.operationsOver f id) ↔ f = m.operationTable) ∧
    (∀ f, (∀ id, f id = m.attributesOver f id) ↔ f = m.attributes) ∧
    ∀ id base text m', addParent id base m = .error (.selfInheritance text) m' ↔
      ((m.node id).isClass = true ∧ (m.node base).isRecord = true ∧
        (base = id ∨ TransGen m.Derives base id)) ∧ text = m.fullName id ∧ m' = m := by
  have hl := h.lineage
  refine ⟨hl.acyclic, hl.wellFounded, fun ancestor f => hl.derivesFrom_unique,
    fun f => hl.operationTable_iff, fun f => hl.attributes_unique, fun id base text m' => ?_⟩
  rw [addParent_eq_selfInheritance, hl.derivesFrom_iff]

/-- In the model in which `D` derives from `E` and `E` from `B`, the class `B` cannot derive from
`D`. -/
theorem inheritance_acyclic_of_chain : ∃ m, Reachable .operationsFresh m ∧
    m.Derives ⟨4⟩ ⟨3⟩ ∧ m.Derives ⟨3⟩ ⟨2⟩ ∧ Acyclic m.Derives ∧
    addParent ⟨2⟩ ⟨4⟩ m = .error (.selfInheritance "B") m := by
  have h := reachable_classes [⟨3⟩]
  have hfirst : (bare.afterAll (classes [⟨3⟩])).Derives ⟨4⟩ ⟨3⟩ := by
    unfold Derives
    decide +kernel
  have hsecond : (bare.afterAll (classes [⟨3⟩])).Derives ⟨3⟩ ⟨2⟩ := by
    unfold Derives
    decide +kernel
  obtain ⟨hacyclic, -, -, -, -, hrefused⟩ := h.inheritance_acyclic
  refine ⟨_, h, hfirst, hsecond, hacyclic, (hrefused ⟨2⟩ ⟨4⟩ "B" _).mpr ⟨⟨?_, ?_, ?_⟩, ?_, rfl⟩⟩
  · decide +kernel
  · decide +kernel
  · exact .inr (.head hfirst (.single hsecond))
  · decide +kernel

end Model

end ApiModel
