import ApiModel.Proofs.Descending

/-!
Names that begin with a separator. The search for types cuts a name at its first separator, and an
empty part in front leads to the root; that for constants cuts it at the last one, and takes an
empty part in front for none. So the absolute name of a type leads to it from everywhere, and that
of a constant does if and only if the constant does not belong to the root.
-/

namespace ApiModel

structure Scope.MembersNamed (a : Scope) : Prop where
  constants : a.constants.KeyedBy Constant.name
  attributes : a.attributes.KeyedBy Attribute.name

namespace Model

variable {p : Policy} {m m' : Model} {s id owner : TypeId} {name : String} {search : Search}
  {names : List String} {c : Constant}

theorem ScopeStep.membersNamed {a b : Scope} (h : ScopeStep p m s a b) (ha : a.MembersNamed) :
    b.MembersNamed := by
  cases h with
  | typeEntered =>
    unfold Scope.enterType
    split <;> exact ⟨ha.constants, ha.attributes⟩
  | usedAdded =>
    unfold Scope.use
    split
    · exact ha
    · exact ⟨ha.constants, ha.attributes⟩
  | constantAdded new => exact ⟨ha.constants.insert new, ha.attributes⟩
  | attributeAdded new => exact ⟨ha.constants, ha.attributes.insert new⟩
  | pathsWritten path =>
    exact ⟨ha.constants.mapValues fun _ => rfl, ha.attributes.mapValues fun _ => rfl⟩
  | _ => exact ⟨ha.constants, ha.attributes⟩

theorem Reachable.membersNamed (h : Reachable p m) :
    ∀ s a, m.scope? s = some a → a.MembersNamed := by
  refine h.induct (fun m hm s a ha => ?_) fun _ hP hc =>
    hc.forall_scope (fun _ => ⟨fun _ _ => nofun, fun _ _ => nofun⟩)
      (fun _ _ _ ha hstep => hstep.membersNamed ha) hP
  rw [scope?_rootOnly hm ha]
  exact ⟨fun _ _ => nofun, fun _ _ => nofun⟩

def ConstantsNamed (m : Model) : Prop :=
  ∀ s a, m.scope? s = some a → ∀ name c, a.constants.get? name = some c → c.name = name

theorem Reachable.constantsNamed (h : Reachable p m) : m.ConstantsNamed := fun s a hs =>
  (h.membersNamed s a hs).constants

theorem constant?_eq_get?_members (m : Model) (s : TypeId) (name : String) :
    m.constant? s name = (m.members s).constants.get? name := by
  rw [constant?, members]
  cases m.scope? s <;> rfl

theorem constant?_name (h : m.ConstantsNamed) (hc : c ∈ (m.members owner).constants.values) :
    m.constant? owner c.name = some c := by
  obtain ⟨⟨name, c⟩, he, rfl⟩ := List.mem_map.mp hc
  have hget : (m.members owner).constants.get? name = some c := OrderedMap.get?_eq_some_iff.mpr he
  cases hs : m.scope? owner with
  | none =>
    rw [members, hs] at hget
    cases hget
  | some a =>
    rw [constant?_eq_get?_members, members_of_scope hs]
    rw [members_of_scope hs] at hget
    rw [h owner a hs name c hget, hget]

theorem findConstantInside_of_parent (hp : Path.parent name = "") {follow : Bool} :
    m.findConstantInside s name search follow = m.constant? s name := by
  rw [findConstantInside, if_pos hp, Option.or_none]

theorem findConstantFrom_eq_none (hp : Path.parent name = "")
    (hnone : ∀ s, m.constant? s name = none) (climbs : Nat) (s : TypeId) (search : Search) :
    m.findConstantFrom name climbs s search = none := by
  induction climbs using Nat.strong_induction_on generalizing s search with
  | _ climbs ih =>
  rw [findConstantFrom.eq_def]
  dsimp only
  split
  · rfl
  next a ha =>
  have hused : a.used.findSome? (fun id => m.findConstantInside id name .local false) = none :=
    List.findSome?_eq_none_iff.mpr fun id _ => by rw [findConstantInside_of_parent hp, hnone]
  rw [findConstantInside_of_parent hp, hnone, Option.none_or, hused, Option.none_or]
  split
  · exact ih _ (Nat.lt_succ_self _) _ _
  · rfl

theorem findConstantFrom_of_parent {path last : String} (hc : (m.node s).isContainer = true)
    (hnone : m.constant? s name = none) (hp : Path.parent name = path ∧ Path.baseName name = last)
    (hne : path ≠ "") (hfind : m.findPlain s path search true = some (.raw owner))
    (hstored : m.constant? owner last = some c) (climbs : Nat) :
    m.findConstantFrom name climbs s search = some c := by
  obtain ⟨a, ha⟩ := isContainer_iff.mp hc
  have hinside : m.findConstantInside s name search true = some c := by
    rw [findConstantInside, hnone, Option.none_or, hp.1, hp.2, if_neg hne, hfind]
    dsimp only
    rw [findConstantNear, hstored, Option.some_or]
  rw [findConstantFrom.eq_def]
  simp only [ha, hinside, Option.some_or]

/-- All types, constants, typedefs and aliases are named by identifiers other than `const`. -/
def NamesAreWords (m : Model) : Prop :=
  ∀ node ∈ m.nodes.toList, ∀ a ∈ node.scope?,
    ∀ name ∈ a.types.keys ++ a.typeAliases.keys ++ a.constants.keys, Name.IsWord name

instance (m : Model) : Decidable m.NamesAreWords := by
  unfold NamesAreWords; infer_instance

namespace NamesAreWords

variable (hw : m.NamesAreWords)
include hw

theorem of_isKey (h : (m.members s).IsKey name) : Name.IsWord name := by
  refine name_of_forall (fun node hnode a ha => ⟨fun name hname => ?_, fun name hname => ?_⟩) h <;>
    exact hw node hnode a ha name (by simp [hname])

theorem of_constant (h : m.constant? s name = some c) : Name.IsWord name := by
  rw [constant?_eq_get?_members] at h
  refine members_of_forall (P := fun a => a.constants.get? name = some c → Name.IsWord name)
    (fun node hnode a ha hget => hw node hnode a ha name ?_) nofun s h
  rw [List.mem_append]
  exact .inr (OrderedMap.mem_keys_of_get? hget)

theorem undivided : m.NamesUndivided := fun _ _ hkey =>
  (hw.of_isKey hkey).toIsIdentifier.isPart.undivided

theorem of_type? (hl : m.type? s name = some id) : Name.IsWord name :=
  hw.of_isKey (Scope.isKey_iff.mpr ⟨_, binding?_of_type? hl⟩)

theorem of_attached (ha : m.Attached id names) (ht : m.IsTree) : ∀ name ∈ names, Name.IsWord name :=
  ha.forall_name ht fun _ _ _ => hw.of_type?

theorem constant?_eq_none (hcolon : ':' ∈ name.toList) : m.constant? s name = none :=
  Option.eq_none_iff_forall_ne_some.mpr fun _ hc =>
    (hw.of_constant hc).not_mem (by decide) hcolon

end NamesAreWords

section

variable (h : Reachable p m) (hw : m.NamesAreWords) (hc : (m.node s).isContainer = true)
include h hw hc

theorem Reachable.findType_absolute (ha : m.Attached id names) (hr : id ≠ .root) :
    m.findType s ("::" ++ m.fullName id) search = some (.raw id) := by
  have ht := h.sound.isTree
  have hwords := hw.of_attached ha ht
  have hparts : ∀ name ∈ names, Path.IsPart name := fun name hname => (hwords name hname).isPart
  have hplain : Name.IsPlainQuery ("::" ++ m.fullName id) :=
    (ha.isPlainQuery ht h.coherent hr fun name hname => (hwords name hname).isPlainQuery).absolute
  have hsplit : TypeQuery.split (Name.normalizeQuery ("::" ++ m.fullName id)) =
      .ok ("::" ++ m.fullName id, []) := by
    rw [hplain.normalizeQuery_eq]
    simpa using (ha.isPath ht h.coherent hr hparts).absolute.split (List.forall_mem_nil _)
      (.inl List.not_mem_nil)
  rw [findType_eq hsplit, ha.findPlain_absolute ht h.coherent hr hw.undivided hparts hc]
  rfl

theorem Reachable.findConstant_absolute (ha : m.Attached owner names)
    (hstored : c ∈ (m.members owner).constants.values) :
    m.findConstant s ("::" ++ c.entity.fullName) search =
      if owner = .root then none else some c := by
  have ht := h.sound.isTree
  have hconstant : m.constant? owner c.name = some c := constant?_name h.constantsNamed hstored
  have hword := hw.of_constant hconstant
  have hundivided := hword.toIsIdentifier.isSingle.undivided
  have hnone : ∀ {path : String} (s : TypeId), m.constant? s ("::" ++ path) = none := fun s =>
    hw.constant?_eq_none (by simp [String.toList_append])
  have hname : c.entity.fullName = Path.qualify (m.scopePath owner) c.name := by
    obtain ⟨a, ha', hget⟩ := Option.bind_eq_some_iff.mp hconstant
    have hmem : c.entity ∈ a.entities :=
      Scope.mem_entities.mpr (.inr (.inl ⟨c, OrderedMap.mem_values_of_get? hget, rfl⟩))
    rw [Entity.fullName, (h.coherent.placed owner ha.eq_root_or_owned a ha').2 _ hmem]
    rfl
  rw [hname, findConstant]
  by_cases hr : owner = .root
  · -- the part in front of the name is empty, so no scope is sought by it
    subst hr
    have hroot : m.scopePath .root = "" := by simp [scopePath, (ht.isRoot_iff .root).mpr rfl]
    have hparent := (Path.parts_of_join (.inl rfl) hundivided).1
    rw [String.empty_append] at hparent
    rw [hroot, Path.qualify_empty, Name.normalize_eq_self hword.isPlainQuery.absolute.toIsNormal,
      if_pos rfl]
    exact findConstantFrom_eq_none hparent hnone _ _ _
  · have hwords := hw.of_attached ha ht
    have hparts : ∀ name ∈ names, Path.IsPart name := fun name hname => (hwords name hname).isPart
    have hplain := ha.isPlainQuery ht h.coherent hr fun name hname =>
      (hwords name hname).isPlainQuery
    have hpath := (ha.isPath ht h.coherent hr hparts).absolute
    have hscope : m.scopePath owner = m.fullName owner := by
      rw [scopePath, if_neg (by simpa [ht.isRoot_iff] using hr)]
    have htext : "::" ++ Path.qualify (m.scopePath owner) c.name =
        "::" ++ m.fullName owner ++ "::" ++ c.name := by
      rw [hscope, Path.qualify, if_neg hplain.ne_empty]
      simp only [String.append_assoc]
    rw [htext, Name.normalize_eq_self (hplain.absolute.join hword.isPlainQuery).toIsNormal,
      if_neg hr]
    refine findConstantFrom_of_parent hc ?_ (Path.parts_of_join (.inr hpath) hundivided)
      hpath.ne_empty (ha.findPlain_absolute ht h.coherent hr hw.undivided hparts hc) hconstant _
    rw [String.append_assoc, String.append_assoc]
    exact hnone s

end

/-- From every scope, the absolute name of an attached type is found to be that type. The absolute
name of a constant in an attached scope is found to be that constant, unless it belongs to the root:
then nothing is found. -/
theorem Reachable.absolute_names (h : Reachable p m) (hw : m.NamesAreWords)
    (hc : (m.node s).isContainer = true) :
    (∀ id names, m.Attached id names → id ≠ .root →
      m.findType s ("::" ++ m.fullName id) .owners = some (.raw id)) ∧
    ∀ owner names, m.Attached owner names → ∀ c ∈ (m.members owner).constants.values,
      m.findConstant s ("::" ++ c.entity.fullName) .owners =
        if owner = .root then none else some c :=
  ⟨fun _ _ ha hr => h.findType_absolute hw hc ha hr,
    fun _ _ ha _ hstored => h.findConstant_absolute hw hc ha hstored⟩

/-- A namesake of `n::A` inside of it hides the name `n::A` there, but not its absolute name. -/
theorem absolute_names_past_namesake : ∃ m, Reachable .free m ∧ m.NamesAreWords ∧
    m.findType ⟨2⟩ "n::A" .owners = some (.raw ⟨4⟩) ∧
    m.findType ⟨2⟩ "::n::A" .owners = some (.raw ⟨2⟩) ∧
    ∃ c, m.constant? ⟨2⟩ "K" = some c ∧ m.findConstant ⟨4⟩ "::n::A::K" .owners = some c := by
  let actions : List Action :=
    [.addType .root (declaration .classType "n" "A") true,
     .addConstant ⟨2⟩ { entity := { name := "K" }, value := "1" },
     .addType ⟨2⟩ (declaration .classType "n" "A") true]
  have h : Reachable .free (bare.afterAll actions) := by
    refine reachable_bare.afterAll ?_
    simp only [actions, List.forall_mem_cons, List.not_mem_nil, false_imp_iff, implies_true,
      and_true]
    exact ⟨fun _ => isFresh_declaration nofun nofun, fun _ => nofun,
      fun _ => isFresh_declaration nofun nofun⟩
  have hwords : (bare.afterAll actions).NamesAreWords := by decide +kernel
  have hn : (bare.afterAll actions).Attached ⟨1⟩ _ := .member .root (by decide +kernel)
  have ha : (bare.afterAll actions).Attached ⟨2⟩ _ := .member hn (by decide +kernel)
  obtain ⟨c, hc⟩ : ∃ c, (bare.afterAll actions).constant? ⟨2⟩ "K" = some c :=
    Option.isSome_iff_exists.mp (by decide +kernel)
  have hname : ((bare.afterAll actions).constant? ⟨2⟩ "K").map (·.entity.fullName) =
      some "n::A::K" := by decide +kernel
  rw [hc, Option.map_some, Option.some.injEq] at hname
  have htypes := (h.absolute_names hwords (s := ⟨2⟩) (by decide +kernel)).1 ⟨2⟩ _ ha (by decide)
  have hconstants := (h.absolute_names hwords (s := ⟨4⟩) (by decide +kernel)).2 ⟨2⟩ _ ha c
    (OrderedMap.mem_values_of_get? (constant?_eq_get?_members .. ▸ hc))
  have hfull : (bare.afterAll actions).fullName ⟨2⟩ = "n::A" := by decide +kernel
  rw [hfull] at htypes
  rw [hname] at hconstants
  exact ⟨_, h, hwords, by decide +kernel, htypes, c, hc, hconstants⟩

/-- The absolute name of a constant in the root is not found. -/
theorem absolute_name_missed_in_root : ∃ m c, Reachable .free m ∧ m.NamesAreWords ∧
    (m.node .root).isContainer = true ∧ m.Attached .root [] ∧
    c ∈ (m.members .root).constants.values ∧
    m.findConstant .root ("::" ++ c.entity.fullName) .owners = none := by
  let actions : List Action :=
    [.addConstant .root { entity := { name := "K" }, value := "1" }]
  have h : Reachable .free (bare.afterAll actions) := reachable_bare.afterAll fun action ha m => by
    obtain rfl := List.mem_singleton.mp ha
    exact nofun
  obtain ⟨c, hc⟩ : ∃ c, (bare.afterAll actions).constant? .root "K" = some c :=
    Option.isSome_iff_exists.mp (by decide +kernel)
  have hname : ((bare.afterAll actions).constant? .root "K").map (·.entity.fullName) =
      some "K" := by decide +kernel
  rw [hc, Option.map_some, Option.some.injEq] at hname
  refine ⟨_, c, h, by decide +kernel, by decide +kernel, .root,
    OrderedMap.mem_values_of_get? (constant?_eq_get?_members .. ▸ hc), ?_⟩
  rw [hname]
  decide +kernel

end Model

end ApiModel
