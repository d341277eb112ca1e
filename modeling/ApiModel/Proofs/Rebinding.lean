import ApiModel.Proofs.PlainNames
import ApiModel.Proofs.Registration

/-!
What a declaration does to the names that a scope has already. Names of types and other names, those
of aliases and typedefs, are kept apart, and types come first. A declaration is only refused because
of a type of its name, so it can take another name away from what it stood for; it does this exactly
when one of the names that it brings into the scope was a name of the other sort.
-/

namespace ApiModel

namespace Scope

variable {a b c : Scope} {e : Entity} {id : TypeId} {name : String} {ty : TypeRef}

/-- What the scope itself has under a name: a type, or else an alias or a typedef. -/
def binding? (a : Scope) (name : String) : Option TypeRef :=
  ((a.types.get? name).map .raw).or (a.typeAliases.get? name)

/-- The name is one of a type, an alias or a typedef. -/
def IsKey (a : Scope) (name : String) : Prop :=
  a.types.contains name = true ∨ a.typeAliases.contains name = true

theorem isKey_iff : a.IsKey name ↔ ∃ ty, a.binding? name = some ty := by
  rw [IsKey, OrderedMap.contains, OrderedMap.contains, binding?]
  cases a.types.get? name <;> cases a.typeAliases.get? name <;> simp

structure SameBindings (a b : Scope) : Prop where
  types : b.types = a.types
  typeAliases : b.typeAliases = a.typeAliases

namespace SameBindings

theorem refl (a : Scope) : a.SameBindings a := ⟨rfl, rfl⟩

theorem trans (h : a.SameBindings b) (h' : b.SameBindings c) : a.SameBindings c :=
  ⟨h'.types.trans h.types, h'.typeAliases.trans h.typeAliases⟩

theorem binding?_eq (h : a.SameBindings b) (name : String) : b.binding? name = a.binding? name := by
  rw [binding?, binding?, h.types, h.typeAliases]

end SameBindings

theorem binding?_enterType (a : Scope) (e : Entity) (id : TypeId) (name : String) :
    (a.enterType e id).binding? name =
      if name = e.name then some (.raw id)
      else if e.aliasName = some name then ((a.types.get? name).map .raw).or (some (.raw id))
      else a.binding? name := by
  rw [binding?, Model.types_enterType, OrderedMap.get?_insert]
  by_cases hname : name = e.name
  · rw [if_pos hname, if_pos hname.symm, Option.map_some, Option.some_or]
  · rw [if_neg hname, if_neg (Ne.symm hname), enterType]
    cases halias : e.aliasName with
    | none => simp [binding?]
    | some text => by_cases htext : text = name <;> simp [htext, binding?]

theorem IsKey.enterType (h : a.IsKey name) (e : Entity) (id : TypeId) :
    (a.enterType e id).IsKey name := by
  obtain ⟨ty, hty⟩ := isKey_iff.mp h
  rw [isKey_iff, binding?_enterType]
  split
  · exact ⟨_, rfl⟩
  · split
    · cases a.types.get? name <;> exact ⟨_, rfl⟩
    · exact ⟨ty, hty⟩

/-- A type that enters under these names takes one of them away from an alias or a typedef. -/
def Rebinds (a : Scope) (e : Entity) : Prop :=
  a.types.contains e.name = false ∧
    (a.typeAliases.contains e.name = true ∨
      ∃ text ∈ e.aliasName,
        a.types.contains text = false ∧ a.typeAliases.contains text = true)

instance (a : Scope) (e : Entity) : Decidable (a.Rebinds e) := by
  unfold Rebinds; infer_instance

theorem bindings_enterType_iff (hfree : a.types.contains e.name = false)
    (hnew : ∀ name, a.typeAliases.get? name ≠ some (.raw id)) :
    (∀ name, a.IsKey name → (a.enterType e id).binding? name = a.binding? name) ↔
      ¬ a.Rebinds e := by
  have hother : ∀ {name}, a.types.contains name = false → a.typeAliases.contains name = true →
      a.binding? name ≠ some (.raw id) := by
    intro name ht _ hb
    rw [OrderedMap.contains, Option.isSome_eq_false_iff, Option.isNone_iff_eq_none] at ht
    rw [binding?, ht, Option.map_none, Option.none_or] at hb
    exact hnew name hb
  constructor
  · rintro hkeep ⟨-, hname | ⟨text, htext, ht, ha⟩⟩
    · have hk := hkeep e.name (.inr hname)
      rw [binding?_enterType, if_pos rfl] at hk
      exact hother hfree hname hk.symm
    · have hk := hkeep text (.inr ha)
      have hget : a.types.get? text = none := by simpa [OrderedMap.contains] using ht
      rw [binding?_enterType, if_pos (c := e.aliasName = some text) htext, hget, Option.map_none,
        Option.none_or, ite_self] at hk
      exact hother ht ha hk.symm
  · intro hno name hkey
    rw [binding?_enterType]
    split
    · next hname =>
      subst hname
      obtain ht | ha := hkey
      · rw [hfree] at ht
        cases ht
      · exact absurd ⟨hfree, .inl ha⟩ hno
    · split
      · next halias =>
        cases ht : a.types.get? name with
        | some listed => rw [binding?, ht]; rfl
        | none =>
          have hcontains : a.types.contains name = false := by rw [OrderedMap.contains, ht]; rfl
          obtain ht' | ha := hkey
          · rw [hcontains] at ht'
            cases ht'
          · exact absurd ⟨hfree, .inr ⟨name, halias, hcontains, ha⟩⟩ hno
      · rfl

end Scope

namespace Model

variable {p : Policy} {m m' : Model} {s scope target id : TypeId} {name : String}
  {node : TypeNode}

theorem Repathed.sameBindings (h : m.Repathed m') (s : TypeId) :
    (m.members s).SameBindings (m'.members s) := by
  have htypes := (h.node s).map_scope?_eq (g := fun a => (a.types, a.typeAliases)) fun _ _ => rfl
  have hscope : (m'.scope? s).map (fun a => (a.types, a.typeAliases)) =
      (m.scope? s).map (fun a => (a.types, a.typeAliases)) := htypes
  unfold Model.members
  cases hs : m.scope? s <;> cases hs' : m'.scope? s <;> rw [hs, hs'] at hscope
  · exact .refl _
  · cases hscope
  · cases hscope
  · rw [Option.map_some, Option.map_some, Option.some.injEq, Prod.mk.injEq] at hscope
    exact ⟨hscope.1, hscope.2⟩

theorem members_allocated (hk : m.Knows s) (node : TypeNode) :
    (m.allocated node).members s = m.members s := by
  rw [members, scope?, node_allocated_of_ne (ne_next_of_knows hk), ← scope?, ← members]

theorem sameBindings_linked_of_ne (h : s ≠ scope) (id : TypeId) :
    (m.members s).SameBindings ((m.linked scope id).members s) := by
  have hentered : ((m.claimed scope id).entered scope id).members s = m.members s := by
    rw [members, entered, scope?_modifyScope_of_ne _ h, claimed, scope?_modifyEntity, ← members]
  rw [← hentered]
  exact (repathed_refreshPaths id _).sameBindings s

theorem sameBindings_linked (hc : (m.node scope).isContainer = true) (hk : m.Knows id) :
    ((m.members scope).enterType (m.node id).entity id).SameBindings
      ((m.linked scope id).members scope) := by
  obtain ⟨a, ha⟩ := isContainer_iff.mp hc
  have hentered : ((m.claimed scope id).entered scope id).members scope =
      (m.members scope).enterType (m.node id).entity id := by
    rw [members, entered, scope?_modifyScope_self, claimed, scope?_modifyEntity, ← claimed, ha,
      Option.map_some, Option.getD_some, members_of_scope ha, claimed,
      entity_modifyEntity_self _ hk]
    rfl
  rw [← hentered]
  exact (repathed_refreshPaths id _).sameBindings scope

theorem sameBindings_allocated_linked (hc : (m.node scope).isContainer = true) (node : TypeNode) :
    ((m.members scope).enterType node.entity m.next).SameBindings
      (((m.allocated node).linked scope m.next).members scope) := by
  have hk := knows_of_isContainer hc
  have hc' : ((m.allocated node).node scope).isContainer = true := by
    rwa [node_allocated_of_ne (ne_next_of_knows hk)]
  have hknown : (m.allocated node).Knows m.next := by simp [Knows, next]
  have hlinked := sameBindings_linked hc' hknown
  rwa [members_allocated hk, node_allocated_next] at hlinked

theorem addType_eq (hc : (m.node s).isContainer = true)
    (hscope : declarationScope s node.entity.scopePath m = .ok target m') :
    addType s node m = enterType target node true m' := by
  have hreq : requireContainer s "types" m = .ok () m := by
    simp [requireContainer, ModelM.bind_apply, hc]
  rw [addType, addTypeWith, ModelM.bind_apply, hreq]
  dsimp only
  rw [ModelM.bind_apply, hscope]

theorem addType_direct (hc : (m.node s).isContainer = true)
    (hdirect : (node.entity.scopePath = "" || m.namesScope s node.entity.scopePath) = true) :
    addType s node m = enterType s node true m := by
  refine addType_eq hc ?_
  rw [declarationScope, ModelM.bind_apply, ModelM.get_apply]
  dsimp only
  rw [if_pos hdirect, ModelM.pure_apply]

theorem enterType_of_free (hc : (m.node target).isContainer = true)
    (hfree : m.type? target node.name = none) :
    enterType target node true m = .ok m.next ((m.allocated node).linked target m.next) := by
  have hc' : ((m.allocated node).node target).isContainer = true := by
    rwa [node_allocated_of_ne (ne_next_of_knows (knows_of_isContainer hc))]
  have hnew : allocate node m = .ok m.next (m.allocated node) := rfl
  rw [enterType, ModelM.bind_apply, ModelM.get_apply]
  dsimp only
  rw [hfree]
  simp only [ModelM.bind_apply, ModelM.pure_apply, hnew, attach_eq hc']

/-- Accepted is a type that was there and gets annotations at most, or else a new node. -/
theorem enterType_ok_cases (hc : (m.node target).isContainer = true)
    (hok : enterType target node true m = .ok id m') :
    (m.type? target node.name = some id ∧
      ∃ f, (m.node id).Annotated .free (f (m.node id)) ∧ m' = m.modifyNode id f) ∨
      m.type? target node.name = none ∧ id = m.next ∧
        m' = (m.allocated node).linked target m.next := by
  cases hex : m.type? target node.name with
  | some existing =>
    rw [enterType, ModelM.bind_apply, ModelM.get_apply] at hok
    dsimp only at hok
    rw [hex] at hok
    dsimp only at hok
    split at hok
    · cases hok
      exact .inl ⟨rfl, fun node => node, .refl _, (modifyNode_eq_self rfl).symm⟩
    · split at hok
      · cases hok
        have halias : ∀ text, node.entity.aliasName = some text → Policy.free.Allows text :=
          fun _ _ => nofun
        exact .inl ⟨rfl, (·.adopt node), .adopt halias _, rfl⟩
      · cases hok
  | none =>
    rw [enterType_of_free hc hex] at hok
    cases hok
    exact .inr ⟨rfl, rfl, rfl⟩

theorem scope?_of_annotated {f : TypeNode → TypeNode}
    (h : (m.node id).Annotated p (f (m.node id))) (s : TypeId) :
    (m.modifyNode id f).scope? s = m.scope? s := (rel_modifyNode .refl h s).scope

theorem sameBindings_enterType_of_ne (hne : s ≠ target) (hk : m.Knows s)
    (hc : (m.node target).isContainer = true) (hok : enterType target node true m = .ok id m') :
    (m.members s).SameBindings (m'.members s) := by
  obtain ⟨-, f, hannotated, rfl⟩ | ⟨-, -, rfl⟩ := enterType_ok_cases hc hok
  · rw [members, members, scope?_of_annotated hannotated]
    exact .refl _
  · rw [← members_allocated hk node]
    exact sameBindings_linked_of_ne hne _

theorem knows_withNamespace (hk : m.Knows s) : (m.withNamespace scope name).Knows s := by
  have hsize : (m.withNamespace scope name).size = m.size + 1 := by
    rw [withNamespace, size_linked, size_allocated]
  rw [Knows] at hk ⊢
  omega

theorem sameBindings_withNamespace (hne : s ≠ scope) (hk : m.Knows s) :
    (m.members s).SameBindings ((m.withNamespace scope name).members s) := by
  rw [← members_allocated hk (newNamespace name)]
  exact sameBindings_linked_of_ne hne _

/-- A walk through new namespaces stays away from a scope that was there. -/
theorem sameBindings_walk_of_empty {parts : List String} (hp : ∀ part ∈ parts, Name.IsSingle part)
    (hs : m.scope? scope = some {}) (hne : s ≠ scope) (hk : m.Knows s)
    (hok : parts.foldlM enterNamespace scope m = .ok target m') :
    s ≠ target ∧ m'.Knows s ∧ (m.members s).SameBindings (m'.members s) := by
  induction parts generalizing scope m with
  | nil =>
    cases hok
    exact ⟨hne, hk, .refl _⟩
  | cons part parts ih =>
    obtain ⟨hpart, hparts⟩ := List.forall_mem_cons.mp hp
    have hc : (m.node scope).isContainer = true := isContainer_iff.mpr ⟨_, hs⟩
    have hl : m.type? scope part = none := by rw [type?, hs]; rfl
    rw [List.foldlM_cons, ModelM.bind_apply, enterNamespace_made hpart hl hc] at hok
    obtain ⟨hne', hk', hsame⟩ := ih hparts (scope?_withNamespace hc) (ne_next_of_knows hk)
      (knows_withNamespace hk) hok
    exact ⟨hne', hk', (sameBindings_withNamespace hne hk).trans hsame⟩

/-- A walk that begins inside a scope goes further down, and then through new namespaces. -/
theorem sameBindings_walk_of_inside {parts : List String} (ht : m.IsTree)
    (hp : ∀ part ∈ parts, Name.IsSingle part) (hc : (m.node scope).isContainer = true)
    (hi : m.Inside scope s) (hne : s ≠ scope) (hk : m.Knows s)
    (hok : parts.foldlM enterNamespace scope m = .ok target m') :
    s ≠ target ∧ m'.Knows s ∧ (m.members s).SameBindings (m'.members s) := by
  induction parts generalizing scope with
  | nil =>
    cases hok
    exact ⟨hne, hk, .refl _⟩
  | cons part parts ih =>
    obtain ⟨hpart, hparts⟩ := List.forall_mem_cons.mp hp
    rw [List.foldlM_cons, ModelM.bind_apply] at hok
    cases hl : m.type? scope part with
    | none =>
      rw [enterNamespace_made hpart hl hc] at hok
      obtain ⟨hne', hk', hsame⟩ := sameBindings_walk_of_empty hparts (scope?_withNamespace hc)
        (ne_next_of_knows hk) (knows_withNamespace hk) hok
      exact ⟨hne', hk', (sameBindings_withNamespace hne hk).trans hsame⟩
    | some child =>
      have ho : m.Owned child scope := (ht.listed hl).2
      by_cases hchild : (m.node child).isContainer = true
      · rw [enterNamespace_listed hpart.ne_empty hl hchild] at hok
        refine ih hparts hchild (.head ho hi) ?_ hok
        rintro rfl
        exact ht.not_inside_of_owned ho hi
      · obtain ⟨failure, he⟩ := enterNamespace_refused hpart.ne_empty hl (by simpa using hchild)
        rw [he] at hok
        cases hok

/-- A walk from the scope finds a type for the first part of the path or makes a namespace. The rest
of it is away from the scope. -/
theorem sameBindings_walk {part : String} {parts : List String} (ht : m.IsTree)
    (hp : ∀ part' ∈ part :: parts, Name.IsSingle part') (hc : (m.node s).isContainer = true)
    (hok : (part :: parts).foldlM enterNamespace s m = .ok target m') :
    s ≠ target ∧ m'.Knows s ∧
      ((m.type? s part).isSome = true ∧ (m.members s).SameBindings (m'.members s) ∨
        (m.type? s part).isSome = false ∧
          ((m.members s).enterType { name := part } m.next).SameBindings (m'.members s)) := by
  obtain ⟨hpart, hparts⟩ := List.forall_mem_cons.mp hp
  have hk := knows_of_isContainer hc
  rw [List.foldlM_cons, ModelM.bind_apply] at hok
  cases hl : m.type? s part with
  | none =>
    rw [enterNamespace_made hpart hl hc] at hok
    obtain ⟨hne, hk', hsame⟩ := sameBindings_walk_of_empty hparts (scope?_withNamespace hc)
      (ne_next_of_knows hk) (knows_withNamespace hk) hok
    have hlinked := sameBindings_allocated_linked hc (newNamespace part)
    exact ⟨hne, hk', .inr ⟨rfl, hlinked.trans hsame⟩⟩
  | some child =>
    have ho : m.Owned child s := (ht.listed hl).2
    by_cases hchild : (m.node child).isContainer = true
    · rw [enterNamespace_listed hpart.ne_empty hl hchild] at hok
      have hne : s ≠ child := by
        rintro rfl
        exact ht.not_inside_of_owned ho .refl
      obtain ⟨hne', hk', hsame⟩ :=
        sameBindings_walk_of_inside ht hparts hchild (.single ho) hne hk hok
      exact ⟨hne', hk', .inl ⟨rfl, hsame⟩⟩
    · obtain ⟨failure, he⟩ := enterNamespace_refused hpart.ne_empty hl (by simpa using hchild)
      rw [he] at hok
      cases hok

def pathHead (path : String) : String :=
  match Name.normalize path with
  | .ok path => (Path.components path).headD ""
  | .error _ => ""

/-- What a declaration enters into the scope itself: the node, or the namespace that its path begins
with. -/
def entryOf (m : Model) (scope : TypeId) (node : TypeNode) : Entity :=
  if node.entity.scopePath = "" || m.namesScope scope node.entity.scopePath then node.entity
  else { name := pathHead node.entity.scopePath }

/-- A declaration that is accepted finds a type under the name that it would enter, or the name was
free and there is a new type now. -/
theorem sameBindings_addType (ht : m.IsTree) (hw : Name.IsWhole node.entity.scopePath)
    (hok : addType s node m = .ok id m') :
    ((m.members s).types.contains (m.entryOf s node).name = true ∧
      (m.members s).SameBindings (m'.members s)) ∨
    (m.members s).types.contains (m.entryOf s node).name = false ∧ ∃ new, ¬ m.Knows new ∧
      ((m.members s).enterType (m.entryOf s node) new).SameBindings (m'.members s) := by
  have hcontains : ∀ name, (m.members s).types.contains name = (m.type? s name).isSome :=
    fun name => by rw [type?_eq_get?_members, OrderedMap.contains]
  obtain ⟨_, m₀, hreq, hok⟩ := ModelM.bind_eq_ok hok
  obtain ⟨rfl, hc⟩ := (atomic_requireContainer s "types").post hreq
  obtain ⟨target, m₁, hscope, hok⟩ := ModelM.bind_eq_ok hok
  have htarget : (m₁.node target).isContainer = true := by
    obtain ⟨rfl, htarget⟩ | hs := (atomic_declarationScope hc hw).post hscope
    · exact htarget
    · exact isContainer_iff.mpr ⟨_, hs⟩
  rw [hcontains, entryOf]
  rw [declarationScope, ModelM.bind_apply, ModelM.get_apply] at hscope
  dsimp only at hscope
  split at hscope
  · next hdirect =>
    cases hscope
    rw [if_pos hdirect]
    obtain ⟨hl, f, hannotated, rfl⟩ | ⟨hl, -, rfl⟩ := enterType_ok_cases hc hok
    · rw [members, members, scope?_of_annotated hannotated]
      exact .inl ⟨Option.isSome_of_eq_some hl, .refl _⟩
    · exact .inr ⟨Option.isSome_eq_false_iff.mpr (Option.isNone_iff_eq_none.mpr hl), m.next,
        not_knows_next, sameBindings_allocated_linked hc node⟩
  · next hpath =>
    rw [addNamespace] at hscope
    obtain ⟨path, m₂, hn, hscope⟩ := ModelM.bind_eq_ok hscope
    cases hnormal : Name.normalize node.entity.scopePath with
    | error failure =>
      rw [hnormal] at hn
      cases hn
    | ok path' =>
      rw [hnormal] at hn
      cases hn
      have hp : ∀ part ∈ Path.components path, Name.IsSingle part := fun part hpart =>
        (Name.isNormal_of_normalize hnormal).isSingle_of_mem_components hpart
          fun he => hw path hnormal (he ▸ hpart)
      rw [if_neg hpath, pathHead, hnormal]
      dsimp only
      cases hparts : Path.components path with
      | nil => exact absurd hparts (by simp [Path.components])
      | cons part parts =>
        rw [hparts] at hp hscope
        obtain ⟨hne, hk, hwalk⟩ := sameBindings_walk ht hp hc hscope
        have hrest := sameBindings_enterType_of_ne hne hk htarget hok
        exact hwalk.imp (fun h => ⟨h.1, h.2.trans hrest⟩)
          fun h => ⟨h.1, m.next, not_knows_next, h.2.trans hrest⟩

theorem bindings_addType (ht : m.IsTree) (hself : m.SelfContained)
    (hw : Name.IsWhole node.entity.scopePath) (hok : addType s node m = .ok id m') :
    (∀ name, (m.members s).IsKey name → (m'.members s).IsKey name) ∧
      ((∀ name, (m.members s).IsKey name →
          (m'.members s).binding? name = (m.members s).binding? name) ↔
        ¬ (m.members s).Rebinds (m.entryOf s node)) := by
  simp only [Scope.isKey_iff]
  obtain ⟨hlisted, hsame⟩ | ⟨hfree, new, hnew, hsame⟩ := sameBindings_addType ht hw hok
  · simp only [hsame.binding?_eq]
    refine ⟨fun _ hkey => hkey, iff_of_true (fun _ _ => trivial) fun hrebinds => ?_⟩
    rw [hrebinds.1] at hlisted
    cases hlisted
  · simp only [hsame.binding?_eq, ← Scope.isKey_iff]
    exact ⟨fun name hkey => hkey.enterType _ _,
      Scope.bindings_enterType_iff hfree fun name hget => hnew (hself.aliased hget)⟩

variable {search : Search} {follow : Bool} {ty : TypeRef} {query : String} {markers : List Char}

/-- What a scope has under the whole name comes first. -/
theorem findInside_of_binding {shorter : TypeId → String → Search → Bool → Option TypeRef}
    (h : (m.members s).binding? name = some ty) :
    m.findInside shorter s name search follow = some ty := by
  cases hs : m.scope? s with
  | none =>
    rw [members, hs] at h
    cases h
  | some a =>
    rw [members_of_scope hs, Scope.binding?] at h
    rw [findInside, hs]
    dsimp only
    rw [← Option.or_assoc, h, Option.some_or]

theorem findBelow_of_inside {bound : Nat}
    (h : m.findInside (m.findBelow bound) s name search follow = some ty) :
    m.findBelow (bound + 1) s name search follow = some ty := by
  have hs : m.scope? s ≠ none := fun hs => by
    rw [findInside, hs] at h
    cases h
  obtain ⟨a, ha⟩ := Option.ne_none_iff_exists'.mp hs
  rw [findBelow, findFrom.eq_def]
  simp only [ha, h, Option.isNone_some, Bool.false_eq_true, if_false, Option.some_or]

theorem findPlain_of_binding (h : (m.members s).binding? name = some ty) :
    m.findPlain s name search follow = some ty := findBelow_of_inside (findInside_of_binding h)

theorem findInside_of_undivided {shorter : TypeId → String → Search → Bool → Option TypeRef}
    (hdiv : Path.splitFirst? name = none) :
    m.findInside shorter s name search follow = (m.members s).binding? name := by
  cases hs : m.scope? s with
  | none =>
    rw [findInside, members, hs]
    rfl
  | some a =>
    rw [findInside, members_of_scope hs, hs, hdiv, Scope.binding?]
    simp

theorem findPlain_of_undivided (hdiv : Path.splitFirst? name = none) (follow : Bool) :
    m.findPlain s name .local follow =
      ((m.members s).binding? name).or
        (if follow then (m.members s).used.findSome? fun u => (m.members u).binding? name
          else none) := by
  rw [findPlain, findBelow, findFrom.eq_def]
  dsimp only
  rw [findInside_of_undivided hdiv, findInUsed_eq_members]
  simp only [findInside_of_undivided hdiv]
  cases hs : m.scope? s with
  | none =>
    rw [members, hs]
    cases follow <;> rfl
  | some a => cases m.size <;> simp

theorem findType_of_binding
    (hquery : TypeQuery.split (Name.normalizeQuery query) = .ok (name, markers))
    (h : (m.members s).binding? name = some ty) :
    m.findType s query search = some (TypeQuery.applyMarkers ty markers) := by
  rw [findType, findTypeBelow, hquery]
  dsimp only
  rw [findPlain_of_binding h, Option.some_or, Option.map_some]

theorem addType_of_listed {existing : TypeId}
    (hdirect : (node.entity.scopePath = "" || m.namesScope s node.entity.scopePath) = true)
    (hl : m.type? s node.name = some existing)
    (hreopened : ((m.node existing).isNamespace && node.isNamespace) = false)
    (hcompleted : ((m.node existing).isForward && node.isRecord) = false) :
    addType s node m = .error (.duplicateDeclaration "type" node.name (m.fullName s)) m := by
  obtain ⟨members, hs, -⟩ := type?_eq_some_iff.mp hl
  have hc : (m.node s).isContainer = true := isContainer_iff.mpr ⟨members, hs⟩
  rw [addType_direct hc hdirect, enterType, ModelM.bind_apply, ModelM.get_apply]
  simp [hl, hreopened, hcompleted]

/-- An accepted declaration leaves all names of its scope with their types exactly when it does not
rebind one, and then queries of these names give what they gave before. Of the names that it may
clash with, only those of types get it refused. -/
theorem Reachable.bindings_addType_iff (h : Reachable p m) (hp : p.ownTypedefs)
    (hw : Name.IsWhole node.entity.scopePath) :
    (∀ id m', addType s node m = .ok id m' →
      ((∀ name, (m.members s).IsKey name →
          m'.findPlain s name .local true = m.findPlain s name .local true) ↔
        ¬ (m.members s).Rebinds (m.entryOf s node)) ∧
      (¬ (m.members s).Rebinds (m.entryOf s node) → ∀ query name markers,
        TypeQuery.split (Name.normalizeQuery query) = .ok (name, markers) →
          (m.members s).IsKey name → m'.findType s query .local = m.findType s query .local)) ∧
    ((node.entity.scopePath = "" || m.namesScope s node.entity.scopePath) = true →
      ∀ existing, m.type? s node.name = some existing →
        ((m.node existing).isNamespace && node.isNamespace) = false →
        ((m.node existing).isForward && node.isRecord) = false →
          addType s node m = .error (.duplicateDeclaration "type" node.name (m.fullName s)) m) := by
  refine ⟨fun id m' hok => ?_, fun hdirect _ => addType_of_listed hdirect⟩
  obtain ⟨hkeys, hkept⟩ := bindings_addType h.sound.isTree (h.selfContained hp) hw hok
  have hplain : (∀ name, (m.members s).IsKey name →
      m'.findPlain s name .local true = m.findPlain s name .local true) ↔
        ∀ name, (m.members s).IsKey name →
          (m'.members s).binding? name = (m.members s).binding? name := by
    refine forall₂_congr fun name hkey => ?_
    obtain ⟨ty, hty⟩ := Scope.isKey_iff.mp hkey
    obtain ⟨ty', hty'⟩ := Scope.isKey_iff.mp (hkeys name hkey)
    rw [findPlain_of_binding hty, findPlain_of_binding hty', hty, hty']
  refine ⟨hplain.trans hkept, fun hno query name markers hquery hkey => ?_⟩
  obtain ⟨ty, hty⟩ := Scope.isKey_iff.mp hkey
  rw [findType_of_binding hquery hty,
    findType_of_binding hquery ((hkept.mpr hno name hkey).trans hty)]

def bareWithTypedef : Model :=
  bare.afterAll [.addType .root (declaration .classType "" "A") true,
    .addTypedef .root "X" (.raw ⟨1⟩)]

theorem reachable_bareWithTypedef : Reachable .typedefsOwn bareWithTypedef := by
  have hclass := (reachable_bare (p := .typedefsOwn)).step
    (.addType .root (declaration .classType "" "A") true) (isFresh_declaration nofun nofun)
  exact hclass.step (.addTypedef .root "X" (.raw ⟨1⟩)) ⟨nofun, fun _ => by decide +kernel⟩

/-- A class `B` leaves the typedef `X` as it is. -/
theorem typedef_kept_by_other : ∃ m, Reachable .typedefsOwn m ∧ (m.members .root).IsKey "X" ∧
    ∃ id m', addType .root (declaration .classType "" "B") m = .ok id m' ∧
      m'.findPlain .root "X" .local true = m.findPlain .root "X" .local true := by
  have hw : Name.IsWhole "" := by
    rintro path h
    cases h
  have hkey : (bareWithTypedef.members .root).IsKey "X" := .inr (by decide +kernel)
  obtain ⟨id, hok⟩ := sizeAfterFailure_eq_none (m := bareWithTypedef)
    (x := addType .root (declaration .classType "" "B")) (by decide +kernel)
  have hiff := (reachable_bareWithTypedef.bindings_addType_iff trivial hw).1 id _ hok
  exact ⟨_, reachable_bareWithTypedef, hkey, id, _, hok,
    hiff.1.mpr (by decide +kernel) "X" hkey⟩

/-- A class `X` is accepted beside the typedef `X`, which leads to the class `A` until then, and
takes the name away from it. -/
theorem typedef_rebound_by_class : ∃ m, Reachable .typedefsOwn m ∧ (m.members .root).IsKey "X" ∧
    m.findPlain .root "X" .local true = some (.raw ⟨1⟩) ∧
    ∃ id m', addType .root (declaration .classType "" "X") m = .ok id m' ∧
      m'.findPlain .root "X" .local true = some (.raw ⟨2⟩) := by
  obtain ⟨id, hok⟩ := sizeAfterFailure_eq_none (m := bareWithTypedef)
    (x := addType .root (declaration .classType "" "X")) (by decide +kernel)
  exact ⟨_, reachable_bareWithTypedef, .inr (by decide +kernel), by decide +kernel, id, _, hok,
    by decide +kernel⟩

end Model

end ApiModel
