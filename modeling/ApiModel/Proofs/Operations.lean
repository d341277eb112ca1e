import ApiModel.Scope

/-!
What an operation keeps when a table stores it, and what a table holds afterwards.
-/

namespace ApiModel

namespace OrderedMap

variable {κ ν : Type} [DecidableEq κ]

theorem mem_put {key : κ} {value : ν} {entries : List (κ × ν)} {entry : κ × ν}
    (h : entry ∈ put key value entries) : entry = (key, value) ∨ entry ∈ entries := by
  induction entries with
  | nil => exact .inl (List.mem_singleton.mp h)
  | cons first entries ih =>
    obtain ⟨k, v⟩ := first
    rw [put] at h
    split at h
    · next hk =>
      obtain he | h := List.mem_cons.mp h
      · exact .inl (by rw [he, hk])
      · exact .inr (List.mem_cons_of_mem _ h)
    · obtain he | h := List.mem_cons.mp h
      · exact .inr (he ▸ List.mem_cons_self)
      · exact (ih h).imp_right (List.mem_cons_of_mem _)

theorem mem_values_insert {m : OrderedMap κ ν} {key : κ} {value v : ν}
    (h : v ∈ (m.insert key value).values) : v = value ∨ v ∈ m.values := by
  obtain ⟨entry, he, rfl⟩ := List.mem_map.mp h
  obtain rfl | he := mem_put he
  · exact .inl rfl
  · exact .inr (List.mem_map_of_mem he)

theorem mem_values_of_get? {m : OrderedMap κ ν} {key : κ} {value : ν}
    (h : m.get? key = some value) : value ∈ m.values :=
  List.mem_map_of_mem (f := Prod.snd) (get?_eq_some_iff.mp h)

theorem mem_keys_of_get? {m : OrderedMap κ ν} {key : κ} {value : ν}
    (h : m.get? key = some value) : key ∈ m.keys :=
  List.mem_map_of_mem (f := Prod.fst) (get?_eq_some_iff.mp h)

end OrderedMap

/-- The operations agree in all but position, alias and export name. -/
structure Operation.SameDeclaration (a b : Operation) : Prop where
  name : b.name = a.name
  owner : b.owner = a.owner
  scopePath : b.entity.scopePath = a.entity.scopePath
  parameters : b.parameters = a.parameters
  returnType : b.returnType = a.returnType
  baseClass : b.baseClass = a.baseClass
  ambiguous : b.ambiguous = a.ambiguous

namespace Operation.SameDeclaration

variable {a b c : Operation}

theorem refl (a : Operation) : a.SameDeclaration a := ⟨rfl, rfl, rfl, rfl, rfl, rfl, rfl⟩

theorem trans (h : a.SameDeclaration b) (h' : b.SameDeclaration c) : a.SameDeclaration c where
  name := h'.name.trans h.name
  owner := h'.owner.trans h.owner
  scopePath := h'.scopePath.trans h.scopePath
  parameters := h'.parameters.trans h.parameters
  returnType := h'.returnType.trans h.returnType
  baseClass := h'.baseClass.trans h.baseClass
  ambiguous := h'.ambiguous.trans h.ambiguous

theorem sameSignature_iff (h : a.SameDeclaration b) (op : Operation) :
    b.SameSignature op ↔ a.SameSignature op := by
  rw [SameSignature, SameSignature, h.name, h.parameters]

end Operation.SameDeclaration

namespace OperationTable

theorem sameDeclaration_aliasUntilFree {setAlias : Entity → String → Entity}
    (h : ∀ e text, (setAlias e text).name = e.name ∧ (setAlias e text).owner = e.owner ∧
      (setAlias e text).scopePath = e.scopePath)
    (t : OperationTable) (libraryPrefix stem : String) (trials n : Nat) (op : Operation) :
    op.SameDeclaration (t.aliasUntilFree libraryPrefix stem setAlias trials n op) := by
  induction trials generalizing n op with
  | zero => exact .refl op
  | succ trials ih =>
    have hstep : op.SameDeclaration (op.mapEntity (setAlias · (stem ++ toString n))) := by
      obtain ⟨hname, howner, hpath⟩ := h op.entity (stem ++ toString n)
      exact ⟨hname, howner, hpath, rfl, rfl, rfl, rfl⟩
    unfold aliasUntilFree
    dsimp only
    split
    · exact hstep.trans (ih _ _)
    · exact hstep

theorem sameDeclaration_withFreeExportName (t : OperationTable) (libraryPrefix : String)
    (op : Operation) : op.SameDeclaration (t.withFreeExportName libraryPrefix op) := by
  unfold withFreeExportName
  dsimp only
  split
  · split
    · refine sameDeclaration_aliasUntilFree (fun e text => ?_) ..
      unfold Entity.setAlias
      split <;> exact ⟨rfl, rfl, rfl⟩
    · refine sameDeclaration_aliasUntilFree (fun e text => ?_) ..
      exact ⟨rfl, rfl, rfl⟩
  · exact .refl op

theorem sameDeclaration_stored (t : OperationTable) (libraryPrefix : String) (op : Operation) :
    op.SameDeclaration (t.stored libraryPrefix op) := by
  have hindex : op.SameDeclaration { op with index := (t.overloads op.name).length } :=
    ⟨rfl, rfl, rfl, rfl, rfl, rfl, rfl⟩
  exact hindex.trans (sameDeclaration_withFreeExportName ..)

theorem groups_push (t : OperationTable) (op : Operation) :
    (t.push op).groups = t.groups.insert op.name (t.overloads op.name ++ [op]) := by
  unfold push
  split <;> rfl

theorem mem_toList_of_mem_overloads {t : OperationTable} {name : String} {op : Operation}
    (h : op ∈ t.overloads name) : op ∈ t.toList := by
  unfold overloads at h
  cases hg : t.groups.get? name with
  | none => simp [hg] at h
  | some group =>
    rw [hg] at h
    exact List.mem_flatten.mpr ⟨group, OrderedMap.mem_values_of_get? hg, h⟩

theorem mem_toList_push {t : OperationTable} {op op' : Operation} (h : op' ∈ (t.push op).toList) :
    op' = op ∨ op' ∈ t.toList := by
  obtain ⟨group, hg, hop⟩ := List.mem_flatten.mp h
  rw [groups_push] at hg
  obtain rfl | hg := OrderedMap.mem_values_insert hg
  · obtain hop | hop := List.mem_append.mp hop
    · exact .inr (mem_toList_of_mem_overloads hop)
    · exact .inl (List.mem_singleton.mp hop)
  · exact .inr (List.mem_flatten.mpr ⟨group, hg, hop⟩)

theorem mem_toList_insert {t : OperationTable} {libraryPrefix : String} {op op' : Operation}
    (h : op' ∈ (t.insert libraryPrefix op).toList) :
    op' = t.stored libraryPrefix op ∨ op' ∈ t.toList := mem_toList_push h

theorem mem_overloads_insert (t : OperationTable) (libraryPrefix : String) (op : Operation) :
    t.stored libraryPrefix op ∈ (t.insert libraryPrefix op).overloads op.name := by
  rw [insert, overloads_push, if_pos (t.sameDeclaration_stored libraryPrefix op).name]
  exact List.mem_append_right _ (List.mem_singleton_self _)

end OperationTable

end ApiModel
