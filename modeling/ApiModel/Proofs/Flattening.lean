import ApiModel.Proofs.Inheritance

/-!
What flattening does to the table of a class. Its own operations stay where they are, and what the
parents have comes behind them: every operation of a parent is represented, and every new one is the
copy of an operation of a parent.
-/

namespace ApiModel

/-- The operation is the form in which the class `id` has `c`, whatever alias and mark it got. -/
structure Operation.Inherits (id : TypeId) (c op : Operation) : Prop where
  name : op.name = c.name
  parameters : op.parameters = c.parameters
  returnType : op.returnType = c.returnType
  baseClass : op.baseClass = c.baseClass
  owner : op.owner = some id

namespace OperationTable

variable {t t' t'' : OperationTable} {op c present : Operation} {id : TypeId}
  {source : Operation → Prop}

theorem mem_toList_iff (h : t.Grouped) : op ∈ t.toList ↔ op ∈ t.overloads op.name := by
  have hsame : op ∈ t.same op ↔ op ∈ (t.overloads op.name).filter (·.SameSignature op) := by
    rw [same_eq_filter_overloads h]
  simpa [same, Operation.SameSignature] using hsame

theorem entry?_eq_none_iff {place : String × Nat} :
    entry? t place = none ↔ (t.overloads place.1).length ≤ place.2 := List.getElem?_eq_none_iff

theorem entry?_push (t : OperationTable) (op found : Operation) (place : String × Nat) :
    entry? (t.push op) place = some found ↔
      entry? t place = some found ∨
        place = (op.name, (t.overloads op.name).length) ∧ found = op := by
  obtain ⟨name, i⟩ := place
  change ((t.push op).overloads name)[i]? = _ ↔ (t.overloads name)[i]? = _ ∨ _
  rw [overloads_push]
  by_cases hn : op.name = name
  · subst hn
    rw [if_pos rfl, List.getElem?_append]
    split
    · next hi =>
      have hne : i ≠ (t.overloads op.name).length := Nat.ne_of_lt hi
      simp [hne]
    · next hi =>
      have hnone : (t.overloads op.name)[i]? = none := List.getElem?_eq_none (Nat.le_of_not_lt hi)
      rw [hnone, List.getElem?_singleton]
      by_cases he : i = (t.overloads op.name).length
      · simp [he, eq_comm]
      · have hsub : i - (t.overloads op.name).length ≠ 0 := by omega
        simp [he, hsub]
  · have hn' : ¬ name = op.name := fun he => hn he.symm
    simp [hn, hn']

theorem names_push (t : OperationTable) (op : Operation) : t.names <+: (t.push op).names := by
  rw [names, names, groups_push, OrderedMap.keys_insert]
  split
  · exact List.prefix_rfl
  · exact List.prefix_append _ _

theorem length_markFirst (p : Operation → Bool) (ops : List Operation) :
    (markFirst p ops).length = ops.length := by
  induction ops with
  | nil => rfl
  | cons op ops ih =>
    rw [markFirst]
    split <;> simp [ih]

theorem getElem?_markFirst {p : Operation → Bool} {ops : List Operation} {i : Nat}
    (hf : ops.find? p = some present) (ho : ops[i]? = some op) :
    (markFirst p ops)[i]? = some op ∨
      op = present ∧ (markFirst p ops)[i]? = some { op with ambiguous := true } := by
  induction ops generalizing i with
  | nil => simp at ho
  | cons first ops ih =>
    rw [markFirst]
    split
    · next hp =>
      obtain rfl : first = present := by simpa [List.find?_cons_of_pos hp] using hf
      cases i with
      | zero =>
        obtain rfl : first = op := by simpa using ho
        exact .inr ⟨rfl, rfl⟩
      | succ i => exact .inl ho
    · next hp =>
      rw [List.find?_cons_of_neg hp] at hf
      cases i with
      | zero => exact .inl ho
      | succ i => exact ih hf ho

theorem names_markSame (t : OperationTable) (c : Operation) : (t.markSame c).names = t.names := by
  unfold markSame
  split
  · next group hg =>
    have hmem : c.name ∈ t.groups.keys :=
      List.mem_map_of_mem (f := Prod.fst) (OrderedMap.get?_eq_some_iff.mp hg)
    rw [names, names, OrderedMap.keys_insert, if_pos hmem]
  · rfl

/-- The class `id` gets the table `t'` out of `t`: what is there keeps its place, and a mark is all
that an operation may get which the class did not declare itself. What is new is inherited. -/
structure Extends (id : TypeId) (source : Operation → Prop) (t t' : OperationTable) : Prop where
  names : t.names <+: t'.names
  kept : ∀ {place op}, entry? t place = some op → ∃ op', entry? t' place = some op' ∧
    (op' = op ∨ op.baseClass ≠ some id ∧ op' = { op with ambiguous := true })
  added : ∀ {place op}, entry? t' place = some op → entry? t place = none →
    ∃ c, source c ∧ c.Inherits id op

/-- The class `id` has the operation of a parent, or one that overrides it. -/
def Represents (t : OperationTable) (id : TypeId) (c : Operation) : Prop :=
  ∃ place op, entry? t place = some op ∧ op.SameSignature c ∧
    (op.baseClass = some id ∨ op.baseClass = c.baseClass)

namespace Extends

theorem refl (t : OperationTable) : Extends id source t t where
  names := List.prefix_rfl
  kept h := ⟨_, h, .inl rfl⟩
  added h h' := by
    rw [h] at h'
    cases h'

theorem trans (h : Extends id source t t') (h' : Extends id source t' t'') :
    Extends id source t t'' where
  names := h.names.trans h'.names
  kept {place op} he := by
    obtain ⟨op', he', hop⟩ := h.kept he
    obtain ⟨op'', he'', hop'⟩ := h'.kept he'
    refine ⟨op'', he'', ?_⟩
    obtain rfl | ⟨hb, rfl⟩ := hop
    · exact hop'
    · obtain rfl | ⟨-, rfl⟩ := hop' <;> exact .inr ⟨hb, rfl⟩
  added {place op} he hnone := by
    cases hmid : entry? t' place with
    | none => exact h'.added he hmid
    | some op' =>
      obtain ⟨c, hc, hin⟩ := h.added hmid hnone
      obtain ⟨op'', he'', hop⟩ := h'.kept hmid
      obtain rfl : op'' = op := Option.some.inj (he''.symm.trans he)
      obtain rfl | ⟨-, rfl⟩ := hop
      · exact ⟨c, hc, hin⟩
      · exact ⟨c, hc, ⟨hin.name, hin.parameters, hin.returnType, hin.baseClass, hin.owner⟩⟩

theorem represents (h : Extends id source t t') (hr : t.Represents id c) :
    t'.Represents id c := by
  obtain ⟨place, op, he, hs, hb⟩ := hr
  obtain ⟨op', he', rfl | ⟨-, rfl⟩⟩ := h.kept he
  · exact ⟨place, op', he', hs, hb⟩
  · exact ⟨place, _, he', hs, hb⟩

theorem push (hc : source c) (hin : c.Inherits id op) : Extends id source t (t.push op) where
  names := names_push t op
  kept {place op'} he := ⟨op', (entry?_push ..).mpr (.inl he), .inl rfl⟩
  added {place op'} he hnone := by
    obtain he | ⟨-, rfl⟩ := (entry?_push ..).mp he
    · rw [hnone] at he
      cases he
    · exact ⟨c, hc, hin⟩

theorem markSame (hf : t.firstSame? c = some present) (hb : present.baseClass ≠ some id) :
    Extends id source t (t.markSame c) where
  names := by rw [names_markSame]
  kept {place op} he := by
    obtain ⟨name, i⟩ := place
    show ∃ op', ((t.markSame c).overloads name)[i]? = some op' ∧ _
    rw [overloads_markSame]
    split
    · next hn =>
      rw [firstSame?, hn] at hf
      obtain he' | ⟨rfl, he'⟩ := getElem?_markFirst hf he
      · exact ⟨op, he', .inl rfl⟩
      · exact ⟨_, he', .inr ⟨hb, rfl⟩⟩
    · exact ⟨op, he, .inl rfl⟩
  added {place op} he hnone := by
    have hlength : ((t.markSame c).overloads place.1).length = (t.overloads place.1).length := by
      rw [overloads_markSame]
      split
      · exact length_markFirst ..
      · rfl
    rw [entry?_eq_none_iff, ← hlength, ← entry?_eq_none_iff, he] at hnone
    cases hnone

end Extends

end OperationTable

open OperationTable

namespace Model

variable {p : Policy} {m : Model} {id parent : TypeId} {t : OperationTable} {op c : Operation}
  {source : Operation → Prop}

theorem inherits_stored (m : Model) (id : TypeId) (t : OperationTable) (c : Operation) :
    c.Inherits id (t.stored m.libraryPrefix (m.inheritedForm id c)) := by
  have hd := t.sameDeclaration_stored m.libraryPrefix (m.inheritedForm id c)
  have hname := (m.sameSignature_inheritedForm id c).1
  exact ⟨hd.name.trans hname, hd.parameters, hd.returnType, hd.baseClass, hd.owner⟩

theorem represents_insert_inheritedForm (m : Model) (id : TypeId) (t : OperationTable)
    (c : Operation) : (t.insert m.libraryPrefix (m.inheritedForm id c)).Represents id c := by
  have hin := m.inherits_stored id t c
  refine ⟨_, _, (entry?_push ..).mpr (.inr ⟨rfl, rfl⟩), ⟨hin.name, ?_⟩, .inr hin.baseClass⟩
  rw [hin.parameters]

theorem extends_inherit (hc : source c) : Extends id source t (m.inherit id t c) := by
  unfold inherit
  split
  · exact .push hc (m.inherits_stored id t c)
  · next present hf =>
    split
    · exact .refl t
    · next hb =>
      simp only [Bool.or_eq_true, decide_eq_true_eq, not_or] at hb
      have hin := m.inherits_stored id (t.markSame c) { c with ambiguous := true }
      refine (Extends.markSame hf hb.1).trans (.push hc ?_)
      exact ⟨hin.name, hin.parameters, hin.returnType, hin.baseClass, hin.owner⟩

/-- Where a class leaves an operation out, it has one in its place. -/
theorem represents_inherit (m : Model) (id : TypeId) (t : OperationTable) (c : Operation) :
    (m.inherit id t c).Represents id c := by
  unfold inherit
  split
  · exact m.represents_insert_inheritedForm id t c
  · next present hf =>
    split
    · next hb =>
      have hmem : present ∈ t.overloads c.name := List.mem_of_find?_eq_some hf
      have hsame : present.SameSignature c := by simpa using List.find?_some hf
      obtain ⟨i, hi⟩ := List.mem_iff_getElem?.mp hmem
      exact ⟨(c.name, i), present, hi, hsame, by simpa using hb⟩
    · exact m.represents_insert_inheritedForm id _ { c with ambiguous := true }

theorem extends_foldl_inherit {ops : List Operation} (h : ∀ c ∈ ops, source c) :
    Extends id source t (ops.foldl (m.inherit id) t) := by
  induction ops generalizing t with
  | nil => exact .refl t
  | cons c ops ih =>
    obtain ⟨hc, hops⟩ := List.forall_mem_cons.mp h
    exact (extends_inherit hc).trans (ih hops)

theorem represents_foldl_inherit {ops : List Operation} (hc : c ∈ ops) :
    (ops.foldl (m.inherit id) t).Represents id c := by
  induction ops generalizing t with
  | nil => cases hc
  | cons first ops ih =>
    obtain rfl | hc := List.mem_cons.mp hc
    · have hrest : Extends id (fun _ => True) (m.inherit id t c) (ops.foldl (m.inherit id) _) :=
        extends_foldl_inherit fun _ _ => trivial
      exact hrest.represents (m.represents_inherit id t c)
    · exact ih hc

def inheritedOperations (m : Model) (id : TypeId) : List Operation :=
  (m.parents id).flatMap fun parent => (m.operationTable parent).toList

theorem mem_inheritedOperations :
    op ∈ m.inheritedOperations id ↔
      ∃ parent ∈ m.parents id, op ∈ (m.operationTable parent).toList := List.mem_flatMap

theorem operationTable_class (h : Lineage p m) (hc : (m.node id).isClass = true) {a : Scope}
    (hs : m.scope? id = some a) :
    m.operationTable id = (m.inheritedOperations id).foldl (m.inherit id) a.operations := by
  rw [operationTable_eq h hs, if_pos hc, inheritedOperations, List.foldl_flatMap]

theorem scope?_of_isClass (hc : (m.node id).isClass = true) : ∃ a, m.scope? id = some a :=
  isContainer_iff.mp (by rw [TypeNode.isContainer_eq, TypeNode.isRecord, hc]; simp)

theorem extends_operationTable (h : Lineage p m) (hc : (m.node id).isClass = true) {a : Scope}
    (hs : m.scope? id = some a) :
    Extends id (· ∈ m.inheritedOperations id) a.operations (m.operationTable id) := by
  rw [operationTable_class h hc hs]
  exact extends_foldl_inherit fun _ hop => hop

theorem represents_operationTable (h : Lineage p m) (hc : (m.node id).isClass = true)
    (hop : op ∈ m.inheritedOperations id) : (m.operationTable id).Represents id op := by
  obtain ⟨a, hs⟩ := scope?_of_isClass hc
  rw [operationTable_class h hc hs]
  exact represents_foldl_inherit hop

/-- An operation is one of the class itself, but for a mark, or the copy of one that a parent
has. -/
theorem mem_operationTable_cases (h : Lineage p m) (hop : op ∈ (m.operationTable id).toList) :
    (∃ a, m.scope? id = some a ∧
      ∃ own ∈ a.operations.toList, op = own ∨ op = { own with ambiguous := true }) ∨
    (m.node id).isClass = true ∧ ∃ c ∈ m.inheritedOperations id, c.Inherits id op := by
  cases hs : m.scope? id with
  | none =>
    rw [operationTable, operationTableTo, hs] at hop
    cases hop
  | some a =>
    by_cases hc : (m.node id).isClass = true
    · have hext := extends_operationTable h hc hs
      obtain ⟨i, hi⟩ := List.mem_iff_getElem?.mp
        ((mem_toList_iff (grouped_operationTable h id)).mp hop)
      have he : entry? (m.operationTable id) (op.name, i) = some op := hi
      cases hown : entry? a.operations (op.name, i) with
      | none => exact .inr ⟨hc, hext.added he hown⟩
      | some own =>
        obtain ⟨op', he', hop'⟩ := hext.kept hown
        obtain rfl := Option.some.inj (he'.symm.trans he)
        have hmem : own ∈ a.operations.toList :=
          mem_toList_of_mem_overloads (List.mem_of_getElem? hown)
        exact .inl ⟨a, rfl, own, hmem, hop'.imp_right And.right⟩
    · rw [operationTable_eq h hs, if_neg hc] at hop
      exact .inl ⟨a, rfl, op, hop, .inl rfl⟩

/-- The table of a class holds its own operations where the class has them, but for marks on those
that came from elsewhere. Behind them it represents every operation of every parent, and holds
nothing but copies of such operations. -/
theorem Reachable.operationTable_flattens (h : Reachable p m) (hc : (m.node id).isClass = true) :
    ∃ a, m.scope? id = some a ∧
      a.operations.names <+: (m.operationTable id).names ∧
      (∀ place own, entry? a.operations place = some own →
        ∃ found, entry? (m.operationTable id) place = some found ∧
          (found = own ∨ own.baseClass ≠ some id ∧ found = { own with ambiguous := true })) ∧
      (∀ parent ∈ m.parents id, ∀ op ∈ (m.operationTable parent).toList,
        ∃ found ∈ (m.operationTable id).toList, found.SameSignature op ∧
          (found.baseClass = some id ∨ found.baseClass = op.baseClass)) ∧
      ∀ place found, entry? (m.operationTable id) place = some found →
        entry? a.operations place = none → found.owner = some id ∧
          ∃ parent ∈ m.parents id, ∃ op ∈ (m.operationTable parent).toList,
            found.name = op.name ∧ found.parameters = op.parameters ∧
              found.returnType = op.returnType ∧ found.baseClass = op.baseClass := by
  obtain ⟨a, hs⟩ := scope?_of_isClass hc
  have hext := extends_operationTable h.lineage hc hs
  refine ⟨a, hs, hext.names, fun place own hown => hext.kept hown, ?_, ?_⟩
  · intro parent hp op hop
    obtain ⟨place, found, he, hsame, hbase⟩ := represents_operationTable h.lineage hc
      (mem_inheritedOperations.mpr ⟨parent, hp, hop⟩)
    exact ⟨found, mem_toList_of_mem_overloads (List.mem_of_getElem? he), hsame, hbase⟩
  · intro place found he hnone
    obtain ⟨op, hop, hin⟩ := hext.added he hnone
    obtain ⟨parent, hp, hop⟩ := mem_inheritedOperations.mp hop
    exact ⟨hin.owner, parent, hp, op, hop, hin.name, hin.parameters, hin.returnType, hin.baseClass⟩

/-- The class `D` with the parents `A`, `B` and `E` has three operations, and whatever a parent has
is among them. -/
theorem flattens_three_parents :
    ∃ m, Reachable .operationsFresh m ∧ (m.node ⟨4⟩).isClass = true ∧
      m.parents ⟨4⟩ = [⟨1⟩, ⟨2⟩, ⟨3⟩] ∧ (m.operationTable ⟨4⟩).size = 3 ∧
      ∀ parent ∈ m.parents ⟨4⟩, ∀ op ∈ (m.operationTable parent).toList,
        ∃ found ∈ (m.operationTable ⟨4⟩).toList, found.SameSignature op ∧
          (found.baseClass = some ⟨4⟩ ∨ found.baseClass = op.baseClass) := by
  have h := reachable_classes [⟨1⟩, ⟨2⟩, ⟨3⟩]
  have hc : ((bare.afterAll (classes [⟨1⟩, ⟨2⟩, ⟨3⟩])).node ⟨4⟩).isClass = true := by
    decide +kernel
  obtain ⟨a, -, -, -, hall, -⟩ := h.operationTable_flattens hc
  exact ⟨_, h, hc, by decide +kernel, by decide +kernel, hall⟩

end Model

end ApiModel
