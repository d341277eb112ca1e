import Mathlib.Data.List.Induction
import ApiModel.Model.Inheritance
import ApiModel.Proofs.Operations

/-!
A table of operations seen at one signature: where each operation with it comes from, and whether it
is marked as ambiguous. Inheriting one operation changes this view at its own signature only.
-/

namespace ApiModel

/-- Where an operation comes from. -/
structure Origin where
  base : Option TypeId
  ambiguous : Bool
  deriving DecidableEq, Repr

def Origin.marked (o : Origin) : Origin := { o with ambiguous := true }

def Operation.origin (op : Operation) : Origin := ⟨op.baseClass, op.ambiguous⟩

namespace Operation

variable {a b c : Operation}

theorem SameSignature.symm (h : a.SameSignature b) : b.SameSignature a := ⟨h.1.symm, h.2.symm⟩

theorem SameSignature.trans (h : a.SameSignature b) (h' : b.SameSignature c) : a.SameSignature c :=
  ⟨h.1.trans h'.1, h.2.trans h'.2⟩

theorem SameSignature.congr_right (h : b.SameSignature c) : a.SameSignature b ↔ a.SameSignature c :=
  ⟨fun h' => h'.trans h, fun h' => h'.trans h.symm⟩

theorem SameDeclaration.origin_eq (h : a.SameDeclaration b) : b.origin = a.origin := by
  rw [origin, origin, h.baseClass, h.ambiguous]

end Operation

namespace OperationTable

variable {t : OperationTable} {op c : Operation}

def Grouped (t : OperationTable) : Prop := ∀ name, ∀ op ∈ t.overloads name, op.name = name

theorem grouped_empty : empty.Grouped := fun _ _ h => by cases h

theorem Grouped.push (h : t.Grouped) (op : Operation) : (t.push op).Grouped := by
  intro name op' hop
  rw [overloads_push] at hop
  split at hop
  · next hname =>
    obtain hop | hop := List.mem_append.mp hop
    · exact h name op' hop
    · rw [List.mem_singleton.mp hop, hname]
  · exact h name op' hop

theorem Grouped.map {f : Operation → Operation} (h : t.Grouped) (hf : ∀ op, (f op).name = op.name) :
    (t.map f).Grouped := by
  intro name op' hop
  rw [overloads_map] at hop
  obtain ⟨op, hop', rfl⟩ := List.mem_map.mp hop
  rw [hf, h name op hop']

theorem overloads_markSame (t : OperationTable) (c : Operation) (name : String) :
    (t.markSame c).overloads name = if c.name = name then
      markFirst (·.SameSignature c) (t.overloads name) else t.overloads name := by
  unfold markSame
  split
  · next group hg =>
    by_cases h : c.name = name
    · subst h
      simp [overloads, hg]
    · simp [overloads, h]
  · next hg =>
    by_cases h : c.name = name
    · subst h
      simp [overloads, hg, markFirst]
    · simp [h]

theorem mem_markFirst {p : Operation → Bool} {ops : List Operation}
    (h : op ∈ markFirst p ops) : ∃ op' ∈ ops, op = op' ∨ op = { op' with ambiguous := true } := by
  induction ops with
  | nil => cases h
  | cons first ops ih =>
    rw [markFirst] at h
    split at h
    · obtain rfl | h := List.mem_cons.mp h
      · exact ⟨first, List.mem_cons_self, .inr rfl⟩
      · exact ⟨op, List.mem_cons_of_mem _ h, .inl rfl⟩
    · obtain rfl | h := List.mem_cons.mp h
      · exact ⟨op, List.mem_cons_self, .inl rfl⟩
      · obtain ⟨op', hop', he⟩ := ih h
        exact ⟨op', List.mem_cons_of_mem _ hop', he⟩

theorem Grouped.markSame (h : t.Grouped) (c : Operation) : (t.markSame c).Grouped := by
  intro name op hop
  rw [overloads_markSame] at hop
  split at hop
  · obtain ⟨op', hop', rfl | rfl⟩ := mem_markFirst hop
    · exact h name op hop'
    · exact h name op' hop'
  · exact h name op hop

def same (t : OperationTable) (op : Operation) : List Operation :=
  t.toList.filter (·.SameSignature op)

def origins (t : OperationTable) (op : Operation) : List Origin :=
  ((t.overloads op.name).filter (·.SameSignature op)).map Operation.origin

/-- Operations of one signature have one name, so they stand in one group. -/
theorem same_eq_filter_overloads (h : t.Grouped) (op : Operation) :
    t.same op = (t.overloads op.name).filter (·.SameSignature op) := by
  have hgroups : ∀ entry ∈ t.groups.entries, ∀ op' ∈ entry.2, op'.name = entry.1 := by
    intro entry he op' hop
    have hg : t.groups.get? entry.1 = some entry.2 := OrderedMap.get?_eq_some_iff.mpr he
    exact h entry.1 op' (by rw [overloads, hg]; exact hop)
  have hnodup := t.groups.nodup
  rw [same, toList, overloads, OrderedMap.values, OrderedMap.get?]
  generalize t.groups.entries = entries at hgroups hnodup
  -- groups of other names have no such operation
  have hother : ∀ entries : List (String × List Operation),
      (∀ entry ∈ entries, ∀ op' ∈ entry.2, op'.name = entry.1) →
      op.name ∉ entries.map Prod.fst →
      (entries.map Prod.snd).flatten.filter (·.SameSignature op) = [] := by
    intro entries hgroups hne
    refine List.filter_eq_nil_iff.mpr fun op' hop => ?_
    obtain ⟨group, hg, hop⟩ := List.mem_flatten.mp hop
    obtain ⟨entry, he, rfl⟩ := List.mem_map.mp hg
    have hname := hgroups entry he op' hop
    simp only [decide_eq_true_eq]
    exact fun hs => hne (List.mem_map.mpr ⟨entry, he, by rw [← hname, hs.1]⟩)
  induction entries with
  | nil => rfl
  | cons entry entries ih =>
    obtain ⟨name, group⟩ := entry
    rw [List.map_cons, List.nodup_cons] at hnodup
    obtain ⟨hgroup, hrest⟩ := List.forall_mem_cons.mp hgroups
    rw [List.map_cons, List.flatten_cons, List.filter_append, OrderedMap.lookup]
    by_cases hname : name = op.name
    · rw [if_pos hname, hother entries hrest (hname ▸ hnodup.1), List.append_nil]
      rfl
    · have hfirst : group.filter (·.SameSignature op) = [] := by
        refine List.filter_eq_nil_iff.mpr fun op' hop => ?_
        simp only [decide_eq_true_eq]
        exact fun hs => hname ((hgroup op' hop).symm.trans hs.1)
      rw [if_neg hname, hfirst, List.nil_append, ih hrest hnodup.2]

theorem origins_eq_map_same (h : t.Grouped) (op : Operation) :
    t.origins op = (t.same op).map Operation.origin := by
  rw [origins, same_eq_filter_overloads h]

theorem origins_push_same (h : c.SameSignature op) :
    (t.push c).origins op = t.origins op ++ [c.origin] := by
  rw [origins, overloads_push, if_pos h.1, List.filter_append, List.map_append, origins]
  simp [h]

theorem origins_push_other (h : ¬ c.SameSignature op) : (t.push c).origins op = t.origins op := by
  rw [origins, overloads_push]
  split
  · rw [List.filter_append, origins]
    simp [h]
  · rfl

theorem origins_insert {libraryPrefix : String} :
    (t.insert libraryPrefix c).origins op =
      if c.SameSignature op then t.origins op ++ [c.origin] else t.origins op := by
  have hd := t.sameDeclaration_stored libraryPrefix c
  have hs := hd.sameSignature_iff op
  split
  · next h => rw [insert, origins_push_same (hs.mpr h), hd.origin_eq]
  · next h => rw [insert, origins_push_other (mt hs.mp h)]

theorem firstSame?_origin (h : c.SameSignature op) :
    (t.firstSame? c).map Operation.origin = (t.origins op).head? := by
  have hs : ∀ op' : Operation, op'.SameSignature c ↔ op'.SameSignature op :=
    fun op' => h.congr_right
  rw [firstSame?, origins, List.head?_map, List.head?_filter, h.1]
  simp only [hs]

theorem filter_markFirst_same {p : Operation → Bool} (ops : List Operation)
    (hp : ∀ op, p { op with ambiguous := true } = p op) :
    ((markFirst p ops).filter p).map Operation.origin =
      (((ops.filter p).map Operation.origin).modifyHead Origin.marked) := by
  induction ops with
  | nil => rfl
  | cons op ops ih =>
    rw [markFirst]
    by_cases h : p op = true
    · rw [if_pos h, List.filter_cons_of_pos (by rw [hp, h]), List.filter_cons_of_pos h]
      rfl
    · rw [if_neg h, List.filter_cons_of_neg h, List.filter_cons_of_neg h, ih]

theorem filter_markFirst_other {p q : Operation → Bool} (ops : List Operation)
    (hp : ∀ op, p op = true → q op = false)
    (hq : ∀ op, q { op with ambiguous := true } = q op) :
    (markFirst p ops).filter q = ops.filter q := by
  induction ops with
  | nil => rfl
  | cons op ops ih =>
    rw [markFirst]
    by_cases h : p op = true
    · have hop := hp op h
      rw [if_pos h, List.filter_cons_of_neg (by simp [hq, hop]),
        List.filter_cons_of_neg (by simp [hop])]
    · rw [if_neg h, List.filter_cons, List.filter_cons, ih]

theorem origins_markSame : (t.markSame c).origins op =
    if c.SameSignature op then (t.origins op).modifyHead Origin.marked else t.origins op := by
  rw [origins, overloads_markSame, origins]
  by_cases h : c.SameSignature op
  · have hs : ∀ op' : Operation, op'.SameSignature c ↔ op'.SameSignature op :=
      fun op' => h.congr_right
    simp only [if_pos h.1, if_pos h, hs]
    refine filter_markFirst_same _ fun op' => ?_
    rfl
  · rw [if_neg h]
    split
    · congr 1
      refine filter_markFirst_other _ (fun op' hop => ?_) (fun op' => ?_)
      · simp only [decide_eq_true_eq] at hop
        simp only [decide_eq_false_iff_not]
        exact fun h' => h (hop.symm.trans h')
      · rfl
    · rfl

end OperationTable

/-- How a class takes the origin of an inherited operation to those it has of the signature. -/
def addOrigin (id : TypeId) (found : List Origin) (o : Origin) : List Origin :=
  match found with
  | [] => [o]
  | first :: _ =>
    if first.base = some id ∨ first.base = o.base then found
    else found.modifyHead Origin.marked ++ [o.marked]

theorem addOrigin_cons (id : TypeId) (first : Origin) (rest : List Origin) (o : Origin) :
    addOrigin id (first :: rest) o =
      if first.base = some id ∨ first.base = o.base then first :: rest
      else first.marked :: rest ++ [o.marked] := rfl

/-- An operation that the class declares itself overrides all that is inherited. -/
theorem foldl_addOrigin_of_own {id : TypeId} {first : Origin} (h : first.base = some id)
    (rest found : List Origin) : found.foldl (addOrigin id) (first :: rest) = first :: rest := by
  induction found with
  | nil => rfl
  | cons o found ih => rw [List.foldl_cons, addOrigin_cons, if_pos (.inl h), ih]

/-- The first origin is kept, and after it all others but those from the same class. Where there are
others, all are marked. -/
theorem foldl_addOrigin {id : TypeId} (first : Origin) (rest : List Origin)
    (h : first.base ≠ some id) :
    rest.foldl (addOrigin id) [first] =
      if rest.filter (·.base ≠ first.base) = [] then [first]
      else first.marked :: (rest.filter (·.base ≠ first.base)).map Origin.marked := by
  induction rest using List.reverseRecOn with
  | nil => rfl
  | append_singleton rest o ih =>
    rw [List.foldl_append, List.foldl_cons, List.foldl_nil, List.filter_append]
    generalize rest.filter (·.base ≠ first.base) = others at ih
    obtain ⟨head, hbase, hmarked, hfold⟩ : ∃ head : Origin, head.base = first.base ∧
        head.marked = first.marked ∧
          rest.foldl (addOrigin id) [first] = head :: others.map Origin.marked := by
      by_cases hnil : others = []
      · exact ⟨first, rfl, rfl, by rw [ih, if_pos hnil, hnil]; rfl⟩
      · exact ⟨first.marked, rfl, rfl, by rw [ih, if_neg hnil]⟩
    by_cases ho : first.base = o.base
    · have hskip : [o].filter (·.base ≠ first.base) = [] := by simp [ho]
      rw [hskip, List.append_nil, ← ih, hfold, addOrigin_cons, if_pos (.inr (hbase.trans ho))]
    · have hkeep : [o].filter (·.base ≠ first.base) = [o] := by simp [Ne.symm ho]
      have hnew : ¬ (head.base = some id ∨ head.base = o.base) := by
        rw [hbase]
        exact not_or.mpr ⟨h, ho⟩
      rw [hkeep, if_neg (List.append_ne_nil_of_right_ne_nil _ (List.cons_ne_nil o [])), hfold,
        addOrigin_cons, if_neg hnew, hmarked, List.map_append]
      rfl

theorem exists_of_mem_foldl_addOrigin {id : TypeId} {found : List Origin} {o : Origin}
    (hid : ∀ o ∈ found, o.base ≠ some id) (h : o ∈ found.foldl (addOrigin id) []) :
    ∃ o' ∈ found, o'.base = o.base := by
  cases found with
  | nil => cases h
  | cons first rest =>
    rw [List.foldl_cons, addOrigin, foldl_addOrigin first rest (hid first List.mem_cons_self)] at h
    split at h
    · rw [List.mem_singleton.mp h]
      exact ⟨first, List.mem_cons_self, rfl⟩
    · obtain rfl | h := List.mem_cons.mp h
      · exact ⟨first, List.mem_cons_self, rfl⟩
      · obtain ⟨o', ho', rfl⟩ := List.mem_map.mp h
        exact ⟨o', List.mem_cons_of_mem _ (List.mem_filter.mp ho').1, rfl⟩

/-- Exactly the origins that differ from another one are marked. -/
def Settled (origins : List Origin) : Prop :=
  ∀ o ∈ origins, o.ambiguous = true ↔ ∃ o' ∈ origins, o'.base ≠ o.base

theorem Settled.foldl_addOrigin {id : TypeId} {groups : List (List Origin)}
    (h : ∀ group ∈ groups, Settled group) (hid : ∀ o ∈ groups.flatten, o.base ≠ some id) :
    Settled (groups.flatten.foldl (addOrigin id) []) := by
  cases hf : groups.flatten with
  | nil => exact fun o ho => by cases ho
  | cons first rest =>
    rw [hf] at hid
    rw [List.foldl_cons, addOrigin,
      ApiModel.foldl_addOrigin first rest (hid first List.mem_cons_self)]
    split
    · next hnil =>
      -- all origins are the same, so the first one was not marked where it comes from
      have hsame : ∀ o ∈ first :: rest, o.base = first.base := by
        intro o ho
        obtain rfl | ho := List.mem_cons.mp ho
        · rfl
        · by_contra hne
          exact List.filter_eq_nil_iff.mp hnil o ho (by simpa using hne)
      obtain ⟨group, hg, hfirst⟩ :=
        List.mem_flatten.mp (hf ▸ List.mem_cons_self : first ∈ groups.flatten)
      have hgroup := h group hg first hfirst
      intro o ho
      obtain rfl := List.mem_singleton.mp ho
      rw [hgroup]
      constructor
      · rintro ⟨o', ho', hne⟩
        have hmem : o' ∈ groups.flatten := List.mem_flatten.mpr ⟨group, hg, ho'⟩
        exact absurd (hsame o' (hf ▸ hmem)) hne
      · rintro ⟨o', ho', hne⟩
        exact absurd (by rw [List.mem_singleton.mp ho']) hne
    · next hne =>
      obtain ⟨other, hother⟩ := List.exists_mem_of_ne_nil _ hne
      have hdiffer : other.base ≠ first.base := by simpa using (List.mem_filter.mp hother).2
      intro o ho
      obtain rfl | ho := List.mem_cons.mp ho
      · refine iff_of_true rfl ⟨other.marked, ?_, hdiffer⟩
        exact List.mem_cons_of_mem _ (List.mem_map_of_mem hother)
      · obtain ⟨o', ho', rfl⟩ := List.mem_map.mp ho
        have hdiffer' : o'.base ≠ first.base := by simpa using (List.mem_filter.mp ho').2
        exact iff_of_true rfl ⟨first.marked, List.mem_cons_self, Ne.symm hdiffer'⟩

namespace Model

variable {m : Model} {id : TypeId} {t : OperationTable} {op c : Operation}

theorem sameSignature_inheritedForm (m : Model) (id : TypeId) (c : Operation) :
    (m.inheritedForm id c).name = c.name ∧ (m.inheritedForm id c).parameters = c.parameters ∧
      (m.inheritedForm id c).origin = c.origin := by
  refine ⟨?_, rfl, rfl⟩
  change (c.entity.clearAutoAlias.setOwner _ _).name = c.entity.name
  unfold Entity.clearAutoAlias
  split <;> rfl

theorem origins_insert_inheritedForm {libraryPrefix : String} :
    (t.insert libraryPrefix (m.inheritedForm id c)).origins op =
      if c.SameSignature op then t.origins op ++ [c.origin] else t.origins op := by
  obtain ⟨hname, hparams, horigin⟩ := m.sameSignature_inheritedForm id c
  have hs : (m.inheritedForm id c).SameSignature op ↔ c.SameSignature op := by
    rw [Operation.SameSignature, Operation.SameSignature, hname, hparams]
  rw [OperationTable.origins_insert, horigin]
  simp only [hs]

/-- Inheriting an operation adds its origin at its signature, and does nothing at others. -/
theorem origins_inherit (m : Model) (id : TypeId) (t : OperationTable) (c op : Operation) :
    (m.inherit id t c).origins op =
      if c.SameSignature op then addOrigin id (t.origins op) c.origin else t.origins op := by
  have hmarked : ({ c with ambiguous := true } : Operation).SameSignature op ↔
      c.SameSignature op := Iff.rfl
  unfold inherit
  by_cases h : c.SameSignature op
  · have hfirst := OperationTable.firstSame?_origin (t := t) h
    rw [if_pos h]
    cases hf : t.firstSame? c with
    | none =>
      rw [hf, Option.map_none, eq_comm, List.head?_eq_none_iff] at hfirst
      rw [origins_insert_inheritedForm, if_pos h, hfirst]
      rfl
    | some present =>
      rw [hf, Option.map_some, eq_comm, List.head?_eq_some_iff] at hfirst
      obtain ⟨rest, hrest⟩ := hfirst
      rw [hrest, addOrigin_cons]
      dsimp only
      by_cases hb : present.baseClass = some id ∨ present.baseClass = c.baseClass
      · have hb' : present.origin.base = some id ∨ present.origin.base = c.origin.base := hb
        rw [if_pos (by simpa using hb), if_pos hb', hrest]
      · have hb' : ¬ (present.origin.base = some id ∨ present.origin.base = c.origin.base) := hb
        rw [if_neg (by simpa using hb), if_neg hb', origins_insert_inheritedForm,
          if_pos (hmarked.mpr h), OperationTable.origins_markSame, if_pos h, hrest]
        rfl
  · rw [if_neg h]
    cases hf : t.firstSame? c with
    | none => rw [origins_insert_inheritedForm, if_neg h]
    | some present =>
      dsimp only
      split
      · rfl
      · rw [origins_insert_inheritedForm, if_neg (mt hmarked.mp h),
          OperationTable.origins_markSame, if_neg h]

theorem grouped_inherit (h : t.Grouped) (m : Model) (id : TypeId) (c : Operation) :
    (m.inherit id t c).Grouped := by
  unfold inherit
  split
  · exact h.push _
  · split
    · exact h
    · exact (h.markSame c).push _

end Model

end ApiModel
