import ApiModel.Proofs.Atomic
import ApiModel.Proofs.Growing
import ApiModel.Proofs.Reachable

/-!
The walk along a path that makes missing namespaces. A walk that is refused leaves what it made on
its way, so a failure changes the model exactly when a missing part comes before the refusal; from a
scope with members, along a path without empty parts, it never does.
-/

namespace ApiModel

theorem Script.within_free (script : Script) : script.Within .free := by
  induction script with
  | done => trivial
  | nameOf _ _ ih | signatureOf _ _ ih | lookup _ _ _ _ ih => exact ih
  | declare _ _ _ _ ih => exact ⟨nofun, ih⟩
  | addOperation _ _ _ ih => exact ⟨nofun, ih⟩
  | installHook _ _ _ ihAnswer ih => exact ⟨ihAnswer, ih⟩
  | removeHook _ ih => exact ih

theorem ModelM.after_bind {α β : Type} (x : ModelM α) (f : α → ModelM β) (m : Model) :
    (x >>= f).after m = match x m with
      | .ok a m' => (f a).after m'
      | .error _ m' => m' := by
  rw [after, bind_apply]
  cases x m <;> rfl

theorem ModelM.rel_after_bind {α β : Type} {R : Model → Model → Prop} {x : ModelM α}
    {f : α → ModelM β} {m : Model} (trans : ∀ {m m' m''}, R m m' → R m' m'' → R m m'')
    (hx : R m (x.after m)) (hf : ∀ a m', x m = .ok a m' → R m' ((f a).after m')) :
    R m ((x >>= f).after m) := by
  rw [after_bind]
  rw [after] at hx
  cases he : x m with
  | ok a m' =>
    rw [he] at hx
    exact trans hx (hf a m' he)
  | error failure m' =>
    rw [he] at hx
    exact hx

namespace Model

variable {p : Policy} {m m' : Model} {scope id : TypeId} {name path : String}

theorem Sound.free (h : Sound p m) : Sound .free m where
  isTree := h.isTree
  hook _ _ _ _ := Script.within_free _
  specializer _ _ _ _ _ := Script.within_free _

def newNamespace (name : String) : TypeNode :=
  { entity := { name }, kind := .container .namespaceType {} }

theorem isBlank_newNamespace (name : String) : (newNamespace name).IsBlank :=
  ⟨rfl, fun _ h => by cases h; rfl, rfl⟩

theorem ofName_namespace (h : Name.IsSingle name) :
    TypeNode.ofName name PlainKind.namespaceType.toTypeKind = .ok (newNamespace name) := by
  rw [TypeNode.ofName, h.ofName]
  rfl

theorem enterNamespace_empty (m : Model) (scope : TypeId) :
    enterNamespace scope "" m = .ok .root m := by
  simp [enterNamespace]

theorem enterNamespace_listed (hne : name ≠ "") (hl : m.type? scope name = some id)
    (hc : (m.node id).isContainer = true) : enterNamespace scope name m = .ok id m := by
  simp [enterNamespace, hne, ModelM.bind_apply, hl, requireContainer, hc]

theorem enterNamespace_refused (hne : name ≠ "") (hl : m.type? scope name = some id)
    (hc : (m.node id).isContainer = false) :
    ∃ failure, enterNamespace scope name m = .error failure m := by
  rw [enterNamespace, if_neg hne]
  simp only [ModelM.bind_apply, ModelM.get_apply, hl, requireContainer, hc]
  exact ⟨_, rfl⟩

theorem enterNamespace_missing (h : Name.IsSingle name) (hl : m.type? scope name = none) :
    enterNamespace scope name m =
      match attach scope m.next (m.allocated (newNamespace name)) with
      | .ok _ m' => .ok m.next m'
      | .error failure m' => .error failure m' := by
  rw [enterNamespace, if_neg h.ne_empty]
  have hnew : allocate (newNamespace name) m = .ok m.next (m.allocated (newNamespace name)) := rfl
  simp only [ModelM.bind_apply, ModelM.get_apply, hl, ofName_namespace h, ModelM.ofExcept_ok,
    ModelM.pure_apply, hnew]
  cases attach scope m.next (m.allocated (newNamespace name)) <;> rfl

def withNamespace (m : Model) (scope : TypeId) (name : String) : Model :=
  (m.allocated (newNamespace name)).linked scope m.next

theorem enterNamespace_made (h : Name.IsSingle name) (hl : m.type? scope name = none)
    (hc : (m.node scope).isContainer = true) :
    enterNamespace scope name m = .ok m.next (m.withNamespace scope name) := by
  have hs : ((m.allocated (newNamespace name)).node scope).isContainer = true := by
    rw [node_allocated_of_ne (ne_next_of_knows (knows_of_isContainer hc)), hc]
  rw [enterNamespace_missing h hl, attach_eq hs, withNamespace]

theorem scope?_withNamespace (hc : (m.node scope).isContainer = true) :
    (m.withNamespace scope name).scope? m.next = some {} := by
  rw [scope?, withNamespace, node_linked_next hc (isBlank_newNamespace name)]
  rfl

/-- In a namespace without types all parts of a path are made. -/
theorem walk_from_empty {parts : List String} (hp : ∀ part ∈ parts, Name.IsSingle part)
    (hs : m.scope? scope = some {}) :
    ∃ target m', parts.foldlM enterNamespace scope m = .ok target m' ∧
      m'.scope? target = some {} := by
  induction parts generalizing scope m with
  | nil => exact ⟨scope, m, rfl, hs⟩
  | cons part parts ih =>
    obtain ⟨hpart, hparts⟩ := List.forall_mem_cons.mp hp
    have hc : (m.node scope).isContainer = true := isContainer_iff.mpr ⟨_, hs⟩
    have hl : m.type? scope part = none := by rw [type?, hs]; rfl
    have hstep := enterNamespace_made hpart hl hc
    rw [List.foldlM_cons, ModelM.bind_apply, hstep]
    exact ih hparts (scope?_withNamespace hc)

/-- From a scope with members, a walk that is refused has made nothing, and where it has made
something nothing is declared yet. -/
theorem walk_cases {parts : List String} (hp : ∀ part ∈ parts, Name.IsSingle part)
    (hc : (m.node scope).isContainer = true) :
    (∃ failure, parts.foldlM enterNamespace scope m = .error failure m) ∨
    ∃ target m', parts.foldlM enterNamespace scope m = .ok target m' ∧
      (m' = m ∧ (m.node target).isContainer = true ∨ m'.scope? target = some {}) := by
  induction parts generalizing scope with
  | nil => exact .inr ⟨scope, m, rfl, .inl ⟨rfl, hc⟩⟩
  | cons part parts ih =>
    obtain ⟨hpart, hparts⟩ := List.forall_mem_cons.mp hp
    rw [List.foldlM_cons, ModelM.bind_apply]
    cases hl : m.type? scope part with
    | none =>
      rw [enterNamespace_made hpart hl hc]
      obtain ⟨target, m', hok, hs⟩ := walk_from_empty hparts (scope?_withNamespace hc)
      exact .inr ⟨target, m', hok, .inr hs⟩
    | some id =>
      by_cases hid : (m.node id).isContainer = true
      · rw [enterNamespace_listed hpart.ne_empty hl hid]
        exact ih hparts hid
      · obtain ⟨failure, he⟩ := enterNamespace_refused hpart.ne_empty hl (by simpa using hid)
        rw [he]
        exact .inl ⟨failure, rfl⟩

theorem size_after_attach (m : Model) (scope id : TypeId) :
    ((attach scope id).after m).size = m.size := by
  by_cases hc : (m.node scope).isContainer = true
  · rw [ModelM.after, attach_eq hc, size_linked]
  · obtain ⟨failure, he⟩ := attach_eq_error id (by simpa using hc)
    rw [ModelM.after, he, claimed, size_modifyNode]

theorem size_after_enterNamespace (h : Name.IsSingle name) (hl : m.type? scope name = none) :
    ((enterNamespace scope name).after m).size = m.size + 1 := by
  have hattach := size_after_attach (m.allocated (newNamespace name)) scope m.next
  rw [size_allocated, ModelM.after] at hattach
  rw [ModelM.after, enterNamespace_missing h hl]
  cases he : attach scope m.next (m.allocated (newNamespace name)) <;> rw [he] at hattach <;>
    exact hattach

theorem size_le_after_enterNamespace (h : name = "" ∨ Name.IsSingle name) (m : Model)
    (scope : TypeId) : m.size ≤ ((enterNamespace scope name).after m).size := by
  rcases h with rfl | h
  · rw [ModelM.after, enterNamespace_empty]
  · cases hl : m.type? scope name with
    | none =>
      rw [size_after_enterNamespace h hl]
      omega
    | some id =>
      by_cases hid : (m.node id).isContainer = true
      · rw [ModelM.after, enterNamespace_listed h.ne_empty hl hid]
      · obtain ⟨failure, he⟩ := enterNamespace_refused h.ne_empty hl (by simpa using hid)
        rw [ModelM.after, he]

theorem size_le_after_walk {parts : List String}
    (hp : ∀ part ∈ parts, part = "" ∨ Name.IsSingle part)
    (m : Model) (scope : TypeId) :
    m.size ≤ ((parts.foldlM enterNamespace scope).after m).size := by
  induction parts generalizing m scope with
  | nil => exact le_rfl
  | cons part parts ih =>
    obtain ⟨hpart, hparts⟩ := List.forall_mem_cons.mp hp
    have hstep := size_le_after_enterNamespace hpart m scope
    rw [ModelM.after] at hstep
    rw [List.foldlM_cons, ModelM.after_bind]
    cases he : enterNamespace scope part m with
    | ok id m' =>
      rw [he] at hstep
      exact hstep.trans (ih hparts m' id)
    | error failure m' =>
      rw [he] at hstep
      exact hstep

/-- A walk from the scope along the parts comes to one that is missing, before it is refused. -/
def missesPart (m : Model) : TypeId → List String → Bool
  | _, [] => false
  | scope, part :: parts =>
    if part = "" then missesPart m .root parts
    else
      match m.type? scope part with
      | none => true
      | some id => (m.node id).isContainer && missesPart m id parts

theorem after_walk_eq_self {parts : List String}
    (hp : ∀ part ∈ parts, part = "" ∨ Name.IsSingle part)
    (h : m.missesPart scope parts = false) :
    (parts.foldlM enterNamespace scope).after m = m := by
  induction parts generalizing scope with
  | nil => rfl
  | cons part parts ih =>
    obtain ⟨hpart, hparts⟩ := List.forall_mem_cons.mp hp
    rw [List.foldlM_cons, ModelM.after_bind]
    rcases hpart with rfl | hpart
    · rw [enterNamespace_empty]
      rw [missesPart, if_pos rfl] at h
      exact ih hparts h
    · rw [missesPart, if_neg hpart.ne_empty] at h
      cases hl : m.type? scope part with
      | none => simp [hl] at h
      | some id =>
        simp only [hl] at h
        by_cases hid : (m.node id).isContainer = true
        · rw [enterNamespace_listed hpart.ne_empty hl hid]
          rw [hid, Bool.true_and] at h
          exact ih hparts h
        · obtain ⟨failure, he⟩ := enterNamespace_refused hpart.ne_empty hl (by simpa using hid)
          rw [he]

theorem size_lt_after_walk {parts : List String}
    (hp : ∀ part ∈ parts, part = "" ∨ Name.IsSingle part)
    (h : m.missesPart scope parts = true) :
    m.size < ((parts.foldlM enterNamespace scope).after m).size := by
  induction parts generalizing scope with
  | nil => cases h
  | cons part parts ih =>
    obtain ⟨hpart, hparts⟩ := List.forall_mem_cons.mp hp
    rw [List.foldlM_cons, ModelM.after_bind]
    rcases hpart with rfl | hpart
    · rw [enterNamespace_empty]
      rw [missesPart, if_pos rfl] at h
      exact ih hparts h
    · rw [missesPart, if_neg hpart.ne_empty] at h
      cases hl : m.type? scope part with
      | none =>
        -- from here on nothing gets lost
        have hstep := size_after_enterNamespace hpart hl
        rw [ModelM.after] at hstep
        cases he : enterNamespace scope part m with
        | ok id m' =>
          rw [he] at hstep
          have hrest := size_le_after_walk hparts m' id
          show m.size < ((parts.foldlM enterNamespace id).after m').size
          simp only at hstep
          omega
        | error failure m' =>
          rw [he] at hstep
          show m.size < m'.size
          simp only at hstep
          omega
      | some id =>
        simp only [hl, Bool.and_eq_true] at h
        rw [enterNamespace_listed hpart.ne_empty hl h.1]
        exact ih hparts h.2

def makesNamespace (m : Model) (scope : TypeId) (path : String) : Bool :=
  match Name.normalize path with
  | .ok path => m.missesPart scope (Path.components path)
  | .error _ => false

theorem after_addNamespace_eq_iff (m : Model) (scope : TypeId) (path : String) :
    (addNamespace scope path).after m = m ↔ m.makesNamespace scope path = false := by
  rw [addNamespace, makesNamespace]
  cases hn : Name.normalize path with
  | error failure => exact iff_of_true rfl rfl
  | ok path' =>
    have hp : ∀ part ∈ Path.components path', part = "" ∨ Name.IsSingle part := fun part hpart =>
      or_iff_not_imp_left.mpr ((Name.isNormal_of_normalize hn).isSingle_of_mem_components hpart)
    show ((Path.components path').foldlM enterNamespace scope).after m = m ↔ _
    refine ⟨fun he => ?_, after_walk_eq_self hp⟩
    by_contra hmiss
    have hlt := size_lt_after_walk hp (by simpa using hmiss)
    rw [he] at hlt
    omega

/-- Renaming makes the namespaces in front of the new name before it checks anything, and nothing
else is done by a renaming that fails. -/
theorem atomic_renameType (hs : Sound p m) (hn : Name.normalize name = .ok path) (id : TypeId) :
    Atomic ((addNamespace .root (Path.parent path)).after m) m (renameType id name)
      fun _ _ => True := by
  unfold renameType
  rw [hn, ModelM.ofExcept_ok, pure_bind]
  dsimp only
  split
  · next hparent =>
    have hsame : (addNamespace .root (Path.parent path)).after m = m := by
      rw [hparent]
      rfl
    rw [hsame]
    apply Atomic.get_bind
    split
    · next owner ho =>
      rw [pure_bind]
      exact atomic_relink (.inl ho)
    · exact .get_bind (.throw_bind _ _)
  · have hadd : Atomic ((addNamespace .root (Path.parent path)).after m) m
        (addNamespace .root (Path.parent path)) fun target m' =>
          m' = (addNamespace .root (Path.parent path)).after m ∧
            (m'.node target).isContainer = true := {
      error := fun he => by rw [ModelM.after, he]
      post := fun hok => ⟨by rw [ModelM.after, hok],
        (does_addNamespace hs.free hs.isTree.knows_root nofun).post hok⟩ }
    refine hadd.bind ?_
    rintro target _ ⟨rfl, hc⟩
    exact atomic_relink (.inr hc)

/-- When adding a namespace fails, the model is as before exactly if the walk along the path comes
to no missing part. The same holds of renaming, with the walk along the path in front of the new
name. Moving a type never changes anything when it fails. -/
theorem Reachable.failed_paths (h : Reachable p m) :
    (∀ scope path failure m', addNamespace scope path m = .error failure m' →
      (m' = m ↔ m.makesNamespace scope path = false)) ∧
    (∀ id name failure m', renameType id name m = .error failure m' →
      (m' = m ↔ ∀ path, Name.normalize name = .ok path →
        m.makesNamespace .root (Path.parent path) = false)) ∧
    ∀ id scope failure m', moveType id scope m = .error failure m' → m' = m := by
  refine ⟨fun scope path failure m' he => ?_, fun id name failure m' he => ?_,
    fun id scope failure m' he => (atomic_moveType id scope).error he⟩
  · have hafter : (addNamespace scope path).after m = m' := by rw [ModelM.after, he]
    rw [← hafter]
    exact after_addNamespace_eq_iff m scope path
  · cases hn : Name.normalize name with
    | error reason =>
      rw [renameType, hn] at he
      cases he
      simp
    | ok path =>
      rw [(atomic_renameType h.sound hn id).error he, after_addNamespace_eq_iff]
      simp

def sizeAfterFailure {α : Type} (x : ModelM α) (m : Model) : Option Nat :=
  match x m with
  | .ok _ _ => none
  | .error _ m' => some m'.size

theorem sizeAfterFailure_eq_some {α : Type} {x : ModelM α} {n : Nat}
    (h : m.sizeAfterFailure x = some n) : ∃ failure m', x m = .error failure m' ∧ m'.size = n := by
  unfold sizeAfterFailure at h
  split at h
  · cases h
  · next failure m' he => exact ⟨failure, m', he, Option.some.inj h⟩

theorem sizeAfterFailure_eq_none {α : Type} {x : ModelM α} (h : m.sizeAfterFailure x = none) :
    ∃ a, x m = .ok a (x.after m) := by
  unfold sizeAfterFailure at h
  rw [ModelM.after]
  split at h
  · next a m' hok => exact ⟨a, by rw [hok]⟩
  · cases h

def bareWithInt : Model :=
  bare.afterAll [.addType .root { entity := { name := "int" }, kind := .basic } true]

theorem reachable_bareWithInt : Reachable .free bareWithInt := by
  refine reachable_bare.afterAll fun action ha m => ?_
  obtain rfl := List.mem_singleton.mp ha
  exact ⟨⟨rfl, nofun, rfl⟩, nofun, nofun, nofun, rfl, nofun⟩

/-- A namespace at `int::x` is refused, and nothing is left of it. -/
theorem failed_path_behind_int : ∃ m, Reachable .free m ∧
    ∃ failure m', addNamespace .root "int::x" m = .error failure m' ∧ m' = m := by
  have hfails : bareWithInt.sizeAfterFailure (addNamespace .root "int::x") = some 2 := by
    decide +kernel
  obtain ⟨failure, m', he, -⟩ := sizeAfterFailure_eq_some hfails
  have hkept := reachable_bareWithInt.failed_paths.1 _ _ _ _ he
  exact ⟨bareWithInt, reachable_bareWithInt, failure, m', he, hkept.mpr (by decide +kernel)⟩

/-- A namespace `x` inside of `int` is refused when it is already there, and so is the root when it
is to be called `n::X`: each leaves one node more. -/
theorem failed_path_leaves_namespace : ∃ m, Reachable .free m ∧ m.Knows ⟨1⟩ ∧ m.size = 2 ∧
    (∃ failure m', addNamespace ⟨1⟩ "x" m = .error failure m' ∧ m'.size = 3) ∧
    ∃ failure m', renameType .root "n::X" m = .error failure m' ∧ m'.size = 3 := by
  refine ⟨bareWithInt, reachable_bareWithInt, by decide +kernel, by decide +kernel,
    sizeAfterFailure_eq_some ?_, sizeAfterFailure_eq_some ?_⟩
  · decide +kernel
  · decide +kernel

end Model

end ApiModel
