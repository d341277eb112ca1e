import ApiModel.Proofs.Concrete
import ApiModel.Proofs.Rebinding
import ApiModel.Proofs.Succeeding

/-!
What a scope still knows of a type that was deleted from it. The type itself and its aliases go, and
so do the typedefs of the bare type. A typedef whose target has layers of pointer, reference or const
over the type stays, and is found like any other name.
-/

namespace ApiModel

namespace Scope

/-- A type, alias or typedef of that name leads to the node, behind whatever layers. -/
def NamesType (a : Scope) (id : TypeId) (name : String) : Prop :=
  a.types.get? name = some id ∨ ∃ ty, a.typeAliases.get? name = some ty ∧ ty.base = id

def NamesLayered (a : Scope) (id : TypeId) (name : String) : Prop :=
  ∃ ty, a.typeAliases.get? name = some ty ∧ ty.base = id ∧ ty.isRaw = false

theorem NamesType.of_binding? {a : Scope} {name : String} {ty : TypeRef}
    (h : a.binding? name = some ty) : a.NamesType ty.base name := by
  cases ht : a.types.get? name with
  | some listed =>
    obtain rfl : .raw listed = ty := by simpa [binding?, ht] using h
    exact .inl ht
  | none => exact .inr ⟨ty, by simpa [binding?, ht] using h, rfl⟩

end Scope

theorem TypeRef.ne_raw_iff {ty : TypeRef} {id : TypeId} (h : ty.base = id) :
    ty ≠ .raw id ↔ ty.isRaw = false := by
  cases ty <;> simp_all [base, isRaw]

namespace Model

variable {p : Policy} {m m' : Model} {id owner scope : TypeId} {query name : String} {ty : TypeRef}

theorem deleteType_eq_ok (hok : deleteType id m = .ok ⟨⟩ m') :
    ∃ owner, m.Member id owner ∧ m' = m.released owner id := by
  by_cases hm : ∃ owner, m.Member id owner
  · obtain ⟨owner, hm⟩ := hm
    rw [deleteType, detach_eq hm.1 hm.2] at hok
    cases hok
    exact ⟨owner, hm, rfl⟩
  · obtain ⟨failure, he⟩ := detach_eq_error fun owner hm' => hm ⟨owner, hm'⟩
    rw [deleteType, he] at hok
    cases hok

theorem members_released (hm : m.Member id owner) :
    (m.released owner id).members owner = (m.members owner).removeType (m.node id).name id := by
  rw [released, members, scope?_modifyEntity, ← members, members_modifyScope hm.2]

theorem types_released_ne (ht : m.IsTree) (hm : m.Member id owner) (name : String) :
    ((m.released owner id).members owner).types.get? name ≠ some id := by
  intro hget
  rw [← type?_eq_get?_members] at hget
  have ho := ((ht.released hm).listed hget).2
  simp [owner?_released (knows_of_owner hm.1)] at ho

theorem typeAliases_released (hm : m.Member id owner) (hbase : ty.base = id) :
    ((m.released owner id).members owner).typeAliases.get? name = some ty ↔
      (m.members owner).typeAliases.get? name = some ty ∧ ty.isRaw = false := by
  rw [members_released hm, Scope.removeType, OrderedMap.get?_filter, ← TypeRef.ne_raw_iff hbase]
  simp [Option.filter_eq_some_iff]

/-- The names by which the former owner leads to the deleted type are those of its typedefs with
layers. -/
theorem namesType_released (ht : m.IsTree) (hm : m.Member id owner) (name : String) :
    ((m.released owner id).members owner).NamesType id name ↔
      (m.members owner).NamesLayered id name := by
  rw [Scope.NamesType, or_iff_right (types_released_ne ht hm name)]
  constructor
  · rintro ⟨ty, hget, hbase⟩
    obtain ⟨hget, hraw⟩ := (typeAliases_released hm hbase).mp hget
    exact ⟨ty, hget, hbase, hraw⟩
  · rintro ⟨ty, hget, hbase, hraw⟩
    exact ⟨ty, (typeAliases_released hm hbase).mpr ⟨hget, hraw⟩, hbase⟩

theorem binding?_released_iff (ht : m.IsTree) (hm : m.Member id owner) (hbase : ty.base = id) :
    ((m.released owner id).members owner).binding? name = some ty ↔
      ((m.members owner).typeAliases.get? name = some ty ∧ ty.isRaw = false) ∧
        ((m.released owner id).members owner).types.get? name = none := by
  have htypes := types_released_ne ht hm name
  rw [← typeAliases_released hm hbase, Scope.binding?]
  cases htype : ((m.released owner id).members owner).types.get? name with
  | none => simp
  | some listed =>
    have hne : TypeRef.raw listed ≠ ty := by
      rintro rfl
      exact htypes (htype.trans (congrArg some hbase))
    simp [hne]

structure IsSimpleQuery (query name : String) : Prop where
  nonEmpty : Name.normalizeQuery query ≠ ""
  split : ∃ markers, TypeQuery.split (Name.normalizeQuery query) = .ok (name, markers)
  undivided : Path.splitFirst? name = none
  plain : '<' ∉ name.toList

/-- A local search ends in the scope itself when no namespace that it uses has the type under the
name. -/
theorem findPlain_eq_binding?_iff (hdiv : Path.splitFirst? name = none)
    (hused : ∀ used ∈ (m.members scope).used, ¬ (m.members used).NamesType ty.base name) :
    m.findPlain scope name .local true = some ty ↔
      (m.members scope).binding? name = some ty := by
  rw [findPlain_of_undivided hdiv, if_pos rfl]
  cases hb : (m.members scope).binding? name with
  | some found => simp
  | none =>
    simp only [Option.none_or, reduceCtorEq, iff_false]
    intro hfound
    obtain ⟨used, hmem, hty⟩ := List.exists_of_findSome?_eq_some hfound
    exact hused used hmem (.of_binding? hty)

theorem IsSimpleQuery.findType_base_iff (hq : IsSimpleQuery query name) :
    (∃ ty, m.findType scope query .local = some ty ∧ ty.base = id) ↔
      ∃ ty, m.findPlain scope name .local true = some ty ∧ ty.base = id := by
  obtain ⟨markers, hsplit⟩ := hq.split
  have hmade : m.findMade scope .local name = none := by
    simp [findMade, Template.split?_eq_none hq.plain]
  simp [findType_eq hsplit, hmade, base_applyMarkers]

theorem IsSimpleQuery.lookupType_base_iff (hq : IsSimpleQuery query name) (hs : Sound p m)
    (hlayered : ∀ ty, m.findPlain scope name .local true = some ty → ty.base = id →
      ty.isRaw = false) :
    (∃ ty m', lookupType scope query .local m = .ok ty m' ∧ m'.journal = m.journal ∧
        ty.base = id) ↔
      ∃ ty, m.findPlain scope name .local true = some ty ∧ ty.base = id := by
  obtain ⟨markers, hsplit⟩ := hq.split
  have hresolve : resolve scope .local name m = .ok (m.findPlain scope name .local true) m := by
    cases hfound : m.findPlain scope name .local true with
    | some found => exact resolve_of_found hfound
    | none =>
      exact resolve_of_neither hfound (Template.split?_eq_none hq.plain)
        (Path.splitAfterTemplate?_eq_none hq.plain)
  constructor
  · rintro ⟨ty, m', hok, hquiet, rfl⟩
    rw [lookupType_eq hq.nonEmpty hsplit, ModelM.bind_apply, hresolve] at hok
    have hend := (does_concludeLookup runs_nestedScripts hs _ _ _ _ _).post hok
    rcases hend with ⟨found, hfound, rfl, -⟩ | hasked
    · exact ⟨found, hfound, (base_applyMarkers found markers).symm⟩
    · exact absurd hquiet hasked
  · rintro ⟨ty, hfound, hbase⟩
    exact ⟨_, m, lookupType_of_findPlain hq.nonEmpty hsplit hfound (hlayered ty hfound hbase), rfl,
      (base_applyMarkers ty markers).trans hbase⟩

/-- A type that was deleted keeps exactly those names in its former owner that typedefs with layers
give it there. Local lookups of unqualified names that no namespace used by the owner has for the
type lead to it exactly by such a typedef, unless a type of the same name hides it. -/
theorem Reachable.deleteType_names (h : Reachable p m) (hok : deleteType id m = .ok ⟨⟩ m') :
    ∃ owner, m.owner? id = some owner ∧
      (∀ name, (m'.members owner).NamesType id name ↔ (m.members owner).NamesLayered id name) ∧
      ∀ query name, IsSimpleQuery query name →
        (∀ used ∈ (m'.members owner).used, ¬ (m'.members used).NamesType id name) →
        ((∃ ty, m'.findType owner query .local = some ty ∧ ty.base = id) ↔
          (m.members owner).NamesLayered id name ∧
            (m'.members owner).types.get? name = none) ∧
        ((∃ ty m'', lookupType owner query .local m' = .ok ty m'' ∧ m''.journal = m'.journal ∧
            ty.base = id) ↔
          (m.members owner).NamesLayered id name ∧
            (m'.members owner).types.get? name = none) := by
  have hs : Sound p m' := by
    have hafter := (h.step (.deleteType id) trivial).sound
    rwa [Action.run, ModelM.after, hok] at hafter
  obtain ⟨owner, hm, rfl⟩ := deleteType_eq_ok hok
  have ht := h.sound.isTree
  refine ⟨owner, hm.1, namesType_released ht hm, fun query name hq hused => ?_⟩
  have hfound : ∀ ty, ty.base = id →
      ((m.released owner id).findPlain owner name .local true = some ty ↔
        ((m.members owner).typeAliases.get? name = some ty ∧ ty.isRaw = false) ∧
          ((m.released owner id).members owner).types.get? name = none) := by
    rintro ty rfl
    rw [findPlain_eq_binding?_iff hq.undivided hused, binding?_released_iff ht hm rfl]
  have hplain : (∃ ty, (m.released owner id).findPlain owner name .local true = some ty ∧
      ty.base = id) ↔ (m.members owner).NamesLayered id name ∧
        ((m.released owner id).members owner).types.get? name = none := by
    constructor
    · rintro ⟨ty, hty, hbase⟩
      obtain ⟨⟨hget, hraw⟩, hfree⟩ := (hfound ty hbase).mp hty
      exact ⟨⟨ty, hget, hbase, hraw⟩, hfree⟩
    · rintro ⟨⟨ty, hget, hbase, hraw⟩, hfree⟩
      exact ⟨ty, (hfound ty hbase).mpr ⟨⟨hget, hraw⟩, hfree⟩, hbase⟩
  have hlayered : ∀ ty, (m.released owner id).findPlain owner name .local true = some ty →
      ty.base = id → ty.isRaw = false := fun ty hty hbase => ((hfound ty hbase).mp hty).1.2
  exact ⟨hq.findType_base_iff.trans hplain, (hq.lookupType_base_iff hs hlayered).trans hplain⟩

/-- A deleted class `A` takes its typedef `X` with it. -/
theorem deleteType_names_of_class : ∃ m m', Reachable .typedefsOwn m ∧
    (m.members .root).NamesType ⟨1⟩ "X" ∧ deleteType ⟨1⟩ m = .ok ⟨⟩ m' ∧
      ¬ (m'.members .root).NamesType ⟨1⟩ "X" := by
  obtain ⟨⟨⟩, hok⟩ := sizeAfterFailure_eq_none (m := bareWithTypedef) (x := deleteType ⟨1⟩)
    (by decide +kernel)
  obtain ⟨owner, howner, hnames, -⟩ := reachable_bareWithTypedef.deleteType_names hok
  have hget : (bareWithTypedef.members .root).typeAliases.get? "X" = some (.raw ⟨1⟩) := by
    decide +kernel
  obtain rfl : .root = owner :=
    Option.some.inj ((show bareWithTypedef.owner? ⟨1⟩ = some .root by decide +kernel).symm.trans
      howner)
  refine ⟨_, _, reachable_bareWithTypedef, .inr ⟨_, hget, rfl⟩, hok, fun hleft => ?_⟩
  obtain ⟨ty, hty, -, hraw⟩ := (hnames "X").mp hleft
  rw [hget] at hty
  cases hty
  cases hraw

def pointerTypedef : List Action :=
  [.addType .root (declaration .classType "" "A") true,
    .addTypedef .root "P" (.pointer (.raw ⟨1⟩))]

theorem reachable_pointerTypedef : Reachable .free (bare.afterAll pointerTypedef) :=
  reachable_bare.afterAll fun action ha m => by
    simp only [pointerTypedef, List.mem_cons, List.not_mem_nil, or_false] at ha
    rcases ha with rfl | rfl
    · exact isFresh_declaration nofun nofun
    · exact ⟨nofun, nofun⟩

/-- A deleted class `A` is still found through its typedef `P`. -/
theorem deleted_class_found : ∃ m m', Reachable .free m ∧ m.owner? ⟨1⟩ = some .root ∧
    deleteType ⟨1⟩ m = .ok ⟨⟩ m' ∧ (m'.members .root).used = [] ∧
      m'.findType .root "P" .local = some (.pointer (.raw ⟨1⟩)) := by
  obtain ⟨⟨⟩, hok⟩ := sizeAfterFailure_eq_none (m := bare.afterAll pointerTypedef)
    (x := deleteType ⟨1⟩) (by decide +kernel)
  exact ⟨_, _, reachable_pointerTypedef, by decide +kernel, hok, by decide +kernel,
    by decide +kernel⟩

end Model

end ApiModel
