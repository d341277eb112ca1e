import ApiModel.Proofs.Footprint
import ApiModel.Proofs.Namespaces

/-!
The types that lookups give. A bare template is refused wherever it comes from. Under pointer,
reference and const layers a template passes when the layers were there before it was found: in the
target of a typedef, or in the answer of a hook.
-/

namespace ApiModel

namespace Model

variable {p : Policy} {m m' m₁ : Model} {scope : TypeId} {search : Search} {query name : String}
  {markers : List Char} {ty t : TypeRef} {run : ScriptRunner}

def HasTypedef (m : Model) (ty : TypeRef) : Prop :=
  ∃ s name, (m.members s).typeAliases.get? name = some ty

theorem Denotes.hasTypedef (h : m.Denotes name ty) (hty : ty.isRaw = false) :
    m.HasTypedef ty := by
  induction h with
  | type listed => cases hty
  | @typeAlias s a name ty members listed =>
    exact ⟨s, name, by rwa [members_of_scope members]⟩
  | parts cut front rest ihfront ihrest => exact ihrest hty

theorem Ready.of_sound (h : Sound p m) : Ready False m.size m :=
  ⟨le_rfl, h.isTree.knows_root, nofun⟩

/-- A name that resolves to a type with layers resolves to the target of a typedef, and the typedef
was there before. -/
theorem hasTypedef_of_resolve (hs : Sound p m) (h : resolve scope search name m = .ok (some ty) m')
    (hty : ty.isRaw = false) : m.HasTypedef ty := by
  cases hplain : m.findPlain scope name search true with
  | some found =>
    rw [resolve_of_found hplain] at h
    cases h
    exact (denotes_of_findPlain hplain).hasTypedef hty
  | none =>
    cases hform : Template.split? name with
    | some cut =>
      -- a name with template arguments leads to a class
      obtain ⟨base, arguments⟩ := cut
      rw [resolve_of_template hplain hform] at h
      obtain ⟨_, _, _, _, rfl, -⟩ := (keeps_instantiate keepsScripts_nestedScripts
        (Ready.of_sound hs) fun text m hr => keeps_lookupType scope text search hr).post h ty rfl
      cases hty
    | none =>
      cases hcut : Path.splitAfterTemplate? name with
      | none =>
        rw [resolve_of_neither hplain hform hcut] at h
        cases h
      | some cut =>
        obtain ⟨head, tail⟩ := cut
        rw [resolve_of_member hplain hform hcut] at h
        cases hhead : resolve scope search head m with
        | error failure m₁ => simp [hhead] at h
        | ok outer m₁ =>
          cases outer with
          | none => simp [hhead] at h
          | some outer =>
            simp only [hhead, EStateM.Result.ok.injEq] at h
            obtain ⟨hfound, rfl⟩ := h
            -- what was done to find the head has added no typedefs
            obtain ⟨s, key, hget⟩ := (denotes_of_findPlain hfound).hasTypedef hty
            have hgrows := (keeps_resolve scope search head (Ready.of_sound hs)).grows_of_ok hhead
            exact ⟨s, key, (hgrows.members s).ofAliased hget⟩

/-- A lookup that succeeds puts its markers on what the name resolves to or else the hook answers,
and that is no bare template. -/
theorem concludeLookup_ok {resolved : Option TypeRef} {normal : String}
    (h : concludeLookup run scope normal name markers resolved m = .ok t m') :
    ∃ ty, t = TypeQuery.applyMarkers ty markers ∧
      (ty.isRaw && (m'.node ty.base).isTemplate) = false ∧
      (resolved = some ty ∧ m' = m ∨
        resolved = none ∧ consultHook run scope name m = .ok (some ty) m') := by
  -- the type has been found, and is checked
  have check : ∀ {ty : TypeRef} {m₁ : Model},
      (do
        if ty.isRaw && ((← get).node ty.base).isTemplate then
          throw (.invalidQualifierCombination normal
            "a template cannot be used without template arguments")
        return TypeQuery.applyMarkers ty markers : ModelM TypeRef) m₁ = .ok t m' →
      t = TypeQuery.applyMarkers ty markers ∧
        (ty.isRaw && (m'.node ty.base).isTemplate) = false ∧ m' = m₁ := by
    intro ty m₁ h
    obtain ⟨_, _, hget, h⟩ := ModelM.bind_eq_ok h
    cases hget
    split at h
    · cases h
    · next hbare =>
      cases h
      exact ⟨rfl, Bool.eq_false_iff.mpr hbare, rfl⟩
  unfold concludeLookup at h
  cases resolved with
  | some ty =>
    obtain ⟨_, _, hpure, h⟩ := ModelM.bind_eq_ok h
    cases hpure
    obtain ⟨rfl, hbare, rfl⟩ := check h
    exact ⟨ty, rfl, hbare, .inl ⟨rfl, rfl⟩⟩
  | none =>
    obtain ⟨found, m₁, hasked, h⟩ := ModelM.bind_eq_ok h
    cases found with
    | none =>
      obtain ⟨_, _, hget, h⟩ := ModelM.bind_eq_ok h
      cases hget
      cases h
    | some ty =>
      obtain ⟨rfl, hbare, rfl⟩ := check h
      exact ⟨ty, rfl, hbare, .inr ⟨rfl, hasked⟩⟩

theorem lookupType_of_findPlain (hq : Name.normalizeQuery query ≠ "")
    (hsplit : TypeQuery.split (Name.normalizeQuery query) = .ok (name, markers))
    (hfound : m.findPlain scope name search true = some ty) (hty : ty.isRaw = false) :
    lookupType scope query search m = .ok (TypeQuery.applyMarkers ty markers) m := by
  rw [lookupType_eq hq hsplit, ModelM.bind_apply, resolve_of_found hfound]
  exact concludeLookup_eq_ok (by simp [hty]) _

/-- A lookup gives a type with a template under its layers only when the name in the query leads to
a typedef whose target has layers already, or when the hook answers with such a type. A typedef
whose target has layers is never refused, whatever is under them. -/
theorem Reachable.lookupType_concrete (h : Reachable p m) (scope : TypeId) (query : String)
    (search : Search) :
    (∀ t m', lookupType scope query search m = .ok t m' → (m'.node t.base).isTemplate = false ∨
      ∃ name markers ty, TypeQuery.split (Name.normalizeQuery query) = .ok (name, markers) ∧
        t = TypeQuery.applyMarkers ty markers ∧ ty.isRaw = false ∧
        (m.HasTypedef ty ∨ ∃ m₁, resolve scope search name m = .ok none m₁ ∧
          consultHook nestedScripts scope name m₁ = .ok (some ty) m')) ∧
    ∀ name markers ty, Name.normalizeQuery query ≠ "" →
      TypeQuery.split (Name.normalizeQuery query) = .ok (name, markers) →
      m.findPlain scope name search true = some ty → ty.isRaw = false →
        lookupType scope query search m = .ok (TypeQuery.applyMarkers ty markers) m := by
  refine ⟨fun t m' hok => ?_, fun name markers ty hq hsplit hfound hty =>
    lookupType_of_findPlain hq hsplit hfound hty⟩
  obtain ⟨hq, name, markers, hsplit⟩ := parts_of_lookupType hok
  rw [lookupType_eq hq hsplit] at hok
  obtain ⟨resolved, m₁, hresolve, hend⟩ := ModelM.bind_eq_ok hok
  obtain ⟨ty, rfl, hbare, hsource⟩ := concludeLookup_ok hend
  rw [base_applyMarkers]
  cases hty : ty.isRaw with
  | true => exact .inl (by simpa [hty] using hbare)
  | false =>
    refine .inr ⟨name, markers, ty, hsplit, rfl, hty, ?_⟩
    obtain ⟨rfl, rfl⟩ | ⟨rfl, hasked⟩ := hsource
    · exact .inl (hasTypedef_of_resolve h.sound hresolve hty)
    · exact .inr ⟨m₁, hresolve, hasked⟩

def twoTypedefs : List Action :=
  [.addTemplate .root "V" ⟨"plain", fun _ _ => .finish⟩,
   .addType .root (declaration .classType "" "A") true,
   .addTypedef .root "X" (.pointer (.raw ⟨1⟩)), .addTypedef .root "Y" (.pointer (.raw ⟨2⟩))]

theorem reachable_twoTypedefs : Reachable .free (bare.afterAll twoTypedefs) := by
  refine reachable_bare.afterAll ?_
  simp only [twoTypedefs, List.forall_mem_cons, List.not_mem_nil, false_imp_iff, implies_true,
    and_true]
  exact ⟨fun _ => ⟨nofun, fun _ _ => trivial⟩, fun _ => isFresh_declaration nofun nofun,
    fun _ => ⟨nofun, nofun⟩, fun _ => ⟨nofun, nofun⟩⟩

/-- The typedef `Y` for `A*` leads to a class. -/
theorem lookupType_concrete_of_class : ∃ m, Reachable .free m ∧
    lookupType .root "Y*" .owners m = .ok (.pointer (.pointer (.raw ⟨2⟩))) m ∧
    (m.node ⟨2⟩).isTemplate = false := by
  have hlookup := (reachable_twoTypedefs.lookupType_concrete .root "Y*" .owners).2 "Y" ['*']
    (.pointer (.raw ⟨2⟩)) (by decide) (by decide +kernel) (by decide +kernel) rfl
  exact ⟨_, reachable_twoTypedefs, hlookup, by decide +kernel⟩

/-- The template `V` is refused as `V*`, but the typedef `X` gives just that. -/
theorem lookupType_template_of_typedef : ∃ m, Reachable .free m ∧
    (m.node ⟨1⟩).isTemplate = true ∧ m.outcome .root "V*" = none ∧
    lookupType .root "X" .owners m = .ok (.pointer (.raw ⟨1⟩)) m := by
  have hsplit : TypeQuery.split (Name.normalizeQuery "X") = .ok ("X", []) := by decide +kernel
  have hfound : (bare.afterAll twoTypedefs).findPlain .root "X" .owners true =
      some (.pointer (.raw ⟨1⟩)) := by decide +kernel
  exact ⟨_, reachable_twoTypedefs, by decide +kernel, by decide +kernel,
    lookupType_of_findPlain (by decide) hsplit hfound rfl⟩

end Model

end ApiModel
