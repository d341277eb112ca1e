import ApiModel.Proofs.Consulting
import ApiModel.Proofs.Descending

/-!
Where declarations land. A type or a constant goes into the namespace at its path below the scope,
which is made if it is missing; an operation or an attribute goes into the type at its path below
the nearest scope that has one. Only nested types are followed, and a path that names the scope
itself leads no further. All that was there before stays where it is.
-/

namespace ApiModel

open Relation

namespace Model

variable {p : Policy} {m m' m'' : Model} {s id scope base target : TypeId} {node : TypeNode}
  {path name : String} {parts : List String}

/-- All types keep their names and their owners, and all scopes their types. -/
structure KeepsTypes (m m' : Model) : Prop where
  size_le : m.size ≤ m'.size
  identity : ∀ id, m.Knows id → (m.node id).SameIdentity (m'.node id)
  listed : ∀ {s name id}, m.type? s name = some id → m'.type? s name = some id

namespace KeepsTypes

theorem refl (m : Model) : KeepsTypes m m := ⟨le_rfl, fun _ _ => .refl _, fun h => h⟩

theorem trans (h : KeepsTypes m m') (h' : KeepsTypes m' m'') : KeepsTypes m m'' where
  size_le := h.size_le.trans h'.size_le
  identity id hk := (h.identity id hk).trans (h'.identity id (Nat.lt_of_lt_of_le hk h.size_le))
  listed hl := h'.listed (h.listed hl)

theorem of_grows {tame : Prop} (h : Grows tame m.size m m') (ht : m.IsTree) : KeepsTypes m m' where
  size_le := h.size_le
  identity id hk := h.identity id hk
  listed hl := h.listed (knows_of_owner (ht.listed hl).2) hl

theorem modifyScope {f : Scope → Scope} (hf : ∀ a, (f a).types = a.types) :
    KeepsTypes m (m.modifyNode scope (·.mapScope f)) where
  size_le := by rw [size_modifyNode]
  identity := fun id _ => rel_modifyNode .refl (.mapScope f _) id
  listed hl := by rwa [(SameShape.modifyScope scope hf).type?_eq]

theorem annotated {f : TypeNode → TypeNode} (h : (m.node id).Annotated p (f (m.node id))) :
    KeepsTypes m (m.modifyNode id f) where
  size_le := by rw [size_modifyNode]
  identity := fun j _ => rel_modifyNode .refl (.of_annotated h) j
  listed hl := by rwa [type?, scope?_of_annotated h]

theorem linked_next (hc : (m.node scope).isContainer = true) (hn : node.IsBlank)
    (hfree : m.type? scope node.name = none) :
    KeepsTypes m ((m.allocated node).linked scope m.next) where
  size_le := by rw [size_linked, size_allocated]; omega
  identity id hk := by
    rw [node_linked_next_of_ne hc hn (ne_next_of_knows hk)]
    split
    · exact .mapScope _ _
    · exact .refl _
  listed hl := by
    rw [type?_linked_next hc hn, if_neg, hl]
    rintro ⟨rfl, rfl⟩
    rw [hfree] at hl
    cases hl

theorem descend?_eq (h : KeepsTypes m m') (hd : m.descend? s parts = some target) :
    m'.descend? s parts = some target := by
  induction parts generalizing s with
  | nil => exact hd
  | cons part parts ih =>
    rw [descend?] at hd ⊢
    by_cases hpart : part = ""
    · rw [if_pos hpart] at hd ⊢
      exact ih hd
    · rw [if_neg hpart] at hd ⊢
      obtain ⟨next, hl, hd⟩ := Option.bind_eq_some_iff.mp hd
      rw [h.listed hl, Option.bind_some]
      exact ih hd

theorem scopePath_eq (h : KeepsTypes m m') (ht : m.IsTree) (ht' : m'.IsTree) (hk : m.Knows s) :
    m'.scopePath s = m.scopePath s := by
  have hroot : (m'.node s).isRoot = (m.node s).isRoot := by
    rw [Bool.eq_iff_iff, ht.isRoot_iff, ht'.isRoot_iff]
  rw [scopePath, scopePath, hroot, fullName, fullName, (h.identity s hk).fullName]

theorem owner?_eq (h : KeepsTypes m m') (hk : m.Knows s) : m'.owner? s = m.owner? s :=
  (h.identity s hk).owner

end KeepsTypes

structure Spares (target : TypeId) (m m' : Model) : Prop extends KeepsTypes m m' where
  members : ∀ s, s ≠ target → (m'.members s).fixed false = (m.members s).fixed false

namespace Spares

theorem refl (target : TypeId) (m : Model) : Spares target m m := ⟨.refl m, fun _ _ => rfl⟩

theorem trans (h : Spares target m m') (h' : Spares target m' m'') : Spares target m m'' where
  toKeepsTypes := h.toKeepsTypes.trans h'.toKeepsTypes
  members s hs := (h'.members s hs).trans (h.members s hs)

theorem modifyScope {f : Scope → Scope} (hf : ∀ a, (f a).types = a.types) :
    Spares target m (m.modifyNode target (·.mapScope f)) where
  toKeepsTypes := .modifyScope hf
  members s hs := by rw [members_modifyScope_of_ne hs]

theorem annotated {f : TypeNode → TypeNode} (h : (m.node id).Annotated p (f (m.node id))) :
    Spares target m (m.modifyNode id f) where
  toKeepsTypes := .annotated h
  members s _ := by rw [Model.members, scope?_of_annotated h, ← Model.members]

theorem linked_next (hc : (m.node target).isContainer = true) (hn : node.IsBlank)
    (hfree : m.type? target node.name = none) :
    Spares target m ((m.allocated node).linked target m.next) where
  toKeepsTypes := .linked_next hc hn hfree
  members s hs := by rw [members_linked_next_of_ne hc hn hs]

/-- A new namespace is a type of its scope and nothing else. -/
theorem withNamespace (hc : (m.node scope).isContainer = true)
    (hfree : m.type? scope name = none) : Spares target m (m.withNamespace scope name) where
  toKeepsTypes := .linked_next hc (isBlank_newNamespace name) hfree
  members s _ := by
    have hblank := isBlank_newNamespace name
    by_cases hs : s = scope
    · rw [hs, Model.withNamespace, members_linked_next hc hblank]
      exact Scope.fixed_enterType rfl _ _
    · rw [Model.withNamespace, members_linked_next_of_ne hc hblank hs]

end Spares

theorem eq_root_or_owned_of_inside (h : m.Inside s .root) : s = .root ∨ m.owner? s ≠ none := by
  obtain rfl | ⟨owner, ho, -⟩ := h.cases_head
  · exact .inl rfl
  · rw [Owned] at ho
    exact .inr (by rw [ho]; simp)

theorem eq_root_or_owned_of_descend (ht : m.IsTree) (hs : s = .root ∨ m.owner? s ≠ none)
    (hd : m.descend? s parts = some target) : target = .root ∨ m.owner? target ≠ none := by
  induction parts generalizing s with
  | nil =>
    cases hd
    exact hs
  | cons part parts ih =>
    rw [descend?] at hd
    split at hd
    · exact ih (.inl rfl) hd
    · obtain ⟨next, hl, hd⟩ := Option.bind_eq_some_iff.mp hd
      exact ih (.inr (by rw [(ht.listed hl).2]; simp)) hd

theorem fullName_of_type? (ht : m.IsTree) (hcoherent : m.Coherent)
    (hs : s = .root ∨ m.owner? s ≠ none) (hl : m.type? s name = some id) :
    m.fullName id = Path.qualify (m.scopePath s) name := by
  obtain ⟨hname, ho⟩ := ht.listed hl
  obtain ⟨members, hscope, -⟩ := type?_eq_some_iff.mp hl
  rw [← hname, ← (hcoherent.placed s hs members hscope).1 id ho]
  rfl

theorem scopePath_of_descend (ht : m.IsTree) (hcoherent : m.Coherent)
    (hs : s = .root ∨ m.owner? s ≠ none) (hp : "" ∉ parts)
    (hd : m.descend? s parts = some target) :
    m.scopePath target = parts.foldl Path.qualify (m.scopePath s) := by
  induction parts generalizing s with
  | nil =>
    cases hd
    rfl
  | cons part parts ih =>
    rw [List.mem_cons, not_or] at hp
    rw [descend?, if_neg (Ne.symm hp.1)] at hd
    obtain ⟨next, hl, hd⟩ := Option.bind_eq_some_iff.mp hd
    have ho : m.Owned next s := (ht.listed hl).2
    have hroot : (m.node next).isRoot = false := by
      rw [Bool.eq_false_iff, ne_eq, ht.isRoot_iff]
      exact ht.ne_root_of_owned ho
    have hpath : m.scopePath next = Path.qualify (m.scopePath s) part := by
      rw [scopePath, hroot, ← fullName_of_type? ht hcoherent hs hl]
      rfl
    rw [List.foldl_cons, ← hpath]
    exact ih (.inr (by rw [ho]; simp)) hp.2 hd

def route (m : Model) (s : TypeId) (path : String) : List String :=
  if m.namesScope s path then [] else Path.components path

/-- The path of the scope in which a declaration in `s` lands, if its own path is followed from
`base`. -/
def landingPath (m : Model) (s base : TypeId) (path : String) : String :=
  if m.namesScope s path then m.scopePath s else Path.qualify (m.scopePath base) path

/-- In the second model, `target` is the scope in which a declaration in `s` of the first one lands,
if its path is followed from `base`. To declare it there once more leads no further. -/
structure LandsIn (m m' : Model) (s base : TypeId) (path : String) (target : TypeId) : Prop where
  reached : m'.descend? base (m.route s path) = some target
  scopePath : m'.scopePath target = m.landingPath s base path
  named : m'.namesScope target path = true

namespace LandsIn

theorem of_named (h : m.namesScope s path = true) : LandsIn m m s s path s where
  reached := by rw [route, if_pos h]; rfl
  scopePath := by rw [landingPath, if_pos h]
  named := h

theorem of_descend (ht : m'.IsTree) (hcoherent : m'.Coherent)
    (hbase : base = .root ∨ m'.owner? base ≠ none) (hpath : m'.scopePath base = m.scopePath base)
    (hp : ∀ part ∈ Path.components path, Name.IsIdentifier part)
    (hs : ¬ m.namesScope s path = true)
    (hd : m'.descend? base (Path.components path) = some target) :
    LandsIn m m' s base path target := by
  have hempty : "" ∉ Path.components path := fun hmem => (hp "" hmem).ne_empty rfl
  have htarget : m'.scopePath target = Path.qualify (m.scopePath base) path := by
    rw [scopePath_of_descend ht hcoherent hbase hempty hd, Path.foldl_qualify_components hempty,
      hpath]
  refine ⟨by rw [route, if_neg hs, hd], by rw [landingPath, if_neg hs, htarget], ?_⟩
  rw [namesScope, htarget, Path.qualify, Bool.or_eq_true, decide_eq_true_eq]
  split
  · exact .inl rfl
  · refine .inr (List.isSuffixOf_iff_suffix.mpr ?_)
    rw [String.append_assoc, String.toList_append (s := m.scopePath base)]
    exact List.suffix_append _ _

theorem later (h : LandsIn m m' s base path target) (hkeeps : KeepsTypes m' m'') (ht : m'.IsTree)
    (ht' : m''.IsTree) (hk : m'.Knows target) : LandsIn m m'' s base path target := by
  have hpath := hkeeps.scopePath_eq ht ht' hk
  exact ⟨hkeeps.descend?_eq h.reached, hpath.trans h.scopePath, by
    rw [namesScope, hpath, ← namesScope, h.named]⟩

theorem modifyScope {f : Scope → Scope} (h : LandsIn m m' s base path target) (ht : m'.IsTree)
    (hc : (m'.node target).isContainer = true) (hf : ∀ a, (f a).types = a.types) :
    LandsIn m (m'.modifyNode target (·.mapScope f)) s base path target :=
  h.later (.modifyScope hf) ht (ht.congr (.modifyScope target hf)) (knows_of_isContainer hc)

end LandsIn

/-- A step into the type of that name, or into a new namespace, keeps what was there. -/
theorem enterNamespace_lands (hname : Name.IsSingle name) (hc : (m.node scope).isContainer = true)
    (hok : enterNamespace scope name m = .ok target m') :
    (∀ other, Spares other m m') ∧ m'.type? scope name = some target ∧
      (m'.node target).isContainer = true := by
  cases hl : m.type? scope name with
  | none =>
    rw [enterNamespace_made hname hl hc] at hok
    cases hok
    refine ⟨fun other => .withNamespace hc hl, ?_,
      isContainer_iff.mpr ⟨_, scope?_withNamespace hc⟩⟩
    rw [withNamespace, type?_linked_next hc (isBlank_newNamespace name), if_pos ⟨rfl, rfl⟩]
  | some id =>
    by_cases hid : (m.node id).isContainer = true
    · rw [enterNamespace_listed hname.ne_empty hl hid] at hok
      cases hok
      exact ⟨fun other => .refl other m, hl, hid⟩
    · obtain ⟨failure, he⟩ := enterNamespace_refused hname.ne_empty hl (by simpa using hid)
      rw [he] at hok
      cases hok

/-- A walk down a path leads to its end. -/
theorem walk_lands (hp : ∀ part ∈ parts, Name.IsSingle part)
    (hc : (m.node scope).isContainer = true)
    (hok : parts.foldlM enterNamespace scope m = .ok target m') :
    (∀ other, Spares other m m') ∧ m'.descend? scope parts = some target ∧
      (m'.node target).isContainer = true := by
  induction parts generalizing scope m with
  | nil =>
    cases hok
    exact ⟨fun other => .refl other _, rfl, hc⟩
  | cons part parts ih =>
    obtain ⟨hpart, hparts⟩ := List.forall_mem_cons.mp hp
    rw [List.foldlM_cons] at hok
    obtain ⟨next, m₁, hfirst, hrest⟩ := ModelM.bind_eq_ok hok
    obtain ⟨hspares, hl, hnext⟩ := enterNamespace_lands hpart hc hfirst
    obtain ⟨hspares', hd, htarget⟩ := ih hparts hnext hrest
    refine ⟨fun other => (hspares other).trans (hspares' other), ?_, htarget⟩
    rw [descend?, if_neg hpart.ne_empty, (hspares' target).listed hl]
    exact hd

/-- A path of identifiers is not empty, so that only the names on it tell whether it leads
anywhere. -/
theorem isDirect_eq (hp : ∀ part ∈ Path.components path, Name.IsIdentifier part) (m : Model)
    (s : TypeId) : (path = "" || m.namesScope s path) = m.namesScope s path := by
  simp [(Name.isNormal_of_components hp).ne_empty]

section Declaring

variable (hs : Sound p m) (hcoherent : m.Coherent) (hjoined : s = .root ∨ m.owner? s ≠ none)
  (hp : ∀ part ∈ Path.components path, Name.IsIdentifier part)

include hs hcoherent hjoined hp

theorem declarationScope_lands (hc : (m.node s).isContainer = true)
    (hok : declarationScope s path m = .ok target m') :
    LandsIn m m' s s path target ∧ (∀ other, Spares other m m') ∧
      (m'.node target).isContainer = true ∧ Sound .free m' ∧ m'.Coherent := by
  have hrun := (does_declarationScope hs.free hc nofun).run_of_ok hok
  have hs' := hrun.sound hs.free
  have hcoherent' := hrun.coherent hs.free hcoherent
  rw [declarationScope, ModelM.bind_apply, ModelM.get_apply] at hok
  dsimp only at hok
  rw [isDirect_eq hp] at hok
  split at hok
  · next hnamed =>
    cases hok
    exact ⟨.of_named hnamed, fun other => .refl other m, hc, hs', hcoherent'⟩
  · next hnamed =>
    rw [addNamespace, Name.normalize_eq_self (Name.isNormal_of_components hp)] at hok
    obtain ⟨hspares, hd, htarget⟩ := walk_lands (fun part hpart => (hp part hpart).isSingle) hc hok
    have hk := knows_of_isContainer hc
    have hjoined' : s = .root ∨ m'.owner? s ≠ none := by
      rwa [(hspares s).owner?_eq hk]
    have hpath := (hspares s).scopePath_eq hs.isTree hs'.isTree hk
    exact ⟨.of_descend hs'.isTree hcoherent' hjoined' hpath hp hnamed hd, hspares, htarget, hs',
      hcoherent'⟩

/-- A type lands in the scope that its path leads to from `s`. -/
theorem addType_lands (hn : node.IsFresh .free) (hpath : node.entity.scopePath = path)
    (hok : addType s node m = .ok id m') :
    ∃ target, LandsIn m m' s s path target ∧ m'.type? target node.name = some id ∧
      m'.owner? id = some target ∧
      m'.fullName id = Path.qualify (m.landingPath s s path) node.name ∧
      (∀ other name, m'.type? other name = some id → other = target) ∧ Spares target m m' := by
  have hd : Does .free m (addType s node) fun id m' => m'.Knows id := does_addTypeWith hs.free hn
  have hrun := hd.run_of_ok hok
  have ht' := (hrun.sound hs.free).isTree
  have hcoherent' := hrun.coherent hs.free hcoherent
  obtain ⟨_, m₀, hreq, hok⟩ := ModelM.bind_eq_ok hok
  obtain ⟨rfl, hc⟩ := (atomic_requireContainer s "types").post hreq
  obtain ⟨target, m₁, hscope, hok⟩ := ModelM.bind_eq_ok hok
  rw [hpath] at hscope
  obtain ⟨hlands, hspares, htarget, hs₁, -⟩ :=
    declarationScope_lands hs hcoherent hjoined hp hc hscope
  have hentered : m'.type? target node.name = some id ∧ Spares target m₁ m' := by
    obtain ⟨hl, f, hannotated, rfl⟩ | ⟨hfree, rfl, rfl⟩ := enterType_ok_cases htarget hok
    · exact ⟨(KeepsTypes.annotated hannotated).listed hl, .annotated hannotated⟩
    · refine ⟨?_, .linked_next htarget hn.toIsBlank hfree⟩
      rw [type?_linked_next htarget hn.toIsBlank, if_pos ⟨rfl, rfl⟩]
  obtain ⟨hl, hentered⟩ := hentered
  have hlater := hlands.later hentered.toKeepsTypes hs₁.isTree ht' (knows_of_isContainer htarget)
  have hspared := (hspares target).trans hentered
  have hjoined' : s = .root ∨ m'.owner? s ≠ none := by
    rwa [hspared.owner?_eq (knows_of_isContainer hc)]
  have hname := fullName_of_type? ht' hcoherent'
    (eq_root_or_owned_of_descend ht' hjoined' hlater.reached) hl
  rw [hlater.scopePath] at hname
  exact ⟨target, hlater, hl, (ht'.listed hl).2, hname,
    fun _ _ hother => (ht'.listed_unique hother hl).1, hspared⟩

theorem addConstant_lands {c c' : Constant} (hpath : c.entity.scopePath = path)
    (hok : addConstant s c m = .ok c' m') :
    ∃ target, LandsIn m m' s s path target ∧ (m'.members target).constants.get? c.name = some c' ∧
      c'.entity.owner = some target ∧
      c'.entity.fullName = Path.qualify (m.landingPath s s path) c.name ∧ Spares target m m' := by
  obtain ⟨_, m₀, hreq, hok⟩ := ModelM.bind_eq_ok hok
  obtain ⟨rfl, hc⟩ := (atomic_requireContainer s "consts").post hreq
  obtain ⟨target, m₁, hscope, hok⟩ := ModelM.bind_eq_ok hok
  rw [hpath] at hscope
  obtain ⟨hlands, hspares, htarget, hs₁, -⟩ :=
    declarationScope_lands hs hcoherent hjoined hp hc hscope
  rw [ModelM.bind_apply, ModelM.get_apply] at hok
  dsimp only at hok
  split at hok
  · cases hok
  · cases hok
    refine ⟨target, hlands.modifyScope hs₁.isTree htarget fun _ => rfl, ?_, rfl, ?_,
      (hspares target).trans (.modifyScope fun _ => rfl)⟩
    · show ((m₁.withConstant target c).members target).constants.get? c.name = _
      rw [withConstant, members_modifyScope htarget]
      exact (OrderedMap.get?_insert ..).trans (if_pos rfl)
    · rw [← hlands.scopePath]
      rfl

end Declaring

/-- Of the scopes around `s`, itself included, `base` is the nearest below which the parts lead to a
type. -/
structure Nearest (m : Model) (s : TypeId) (parts : List String) (base target : TypeId) :
    Prop where
  inside : m.Inside s base
  found : m.descend? base parts = some target
  first : ∀ other, m.Inside s other → m.Inside other base → other ≠ base →
    m.descend? other parts = none

namespace Nearest

theorem refl (ht : m.IsTree) (hd : m.descend? s parts = some target) :
    Nearest m s parts s target where
  inside := .refl
  found := hd
  first _ hother hs hne := absurd (ht.inside_antisymm hs hother) hne

theorem of_findNestedUpTo (ht : m.IsTree) {climbs : Nat}
    (hf : m.findNestedUpTo parts climbs s = some target) :
    ∃ base, Nearest m s parts base target := by
  induction climbs generalizing s with
  | zero => exact ⟨s, refl ht hf⟩
  | succ climbs ih =>
    rw [findNestedUpTo, Option.or_eq_some_iff] at hf
    obtain hd | ⟨hnone, hf⟩ := hf
    · exact ⟨s, refl ht hd⟩
    · obtain ⟨owner, ho, hf⟩ := Option.bind_eq_some_iff.mp hf
      obtain ⟨base, hinside, hfound, hfirst⟩ := ih hf
      refine ⟨base, .head ho hinside, hfound, fun other hs hbase hne => ?_⟩
      obtain rfl | ⟨owner', ho', hother⟩ := hs.cases_head
      · exact hnone
      · obtain rfl : owner' = owner := Owned.unique ho' ho
        exact hfirst other hother hbase hne

end Nearest

theorem IsTree.inside_root (ht : m.IsTree) (hs : m.Inside s .root) (hb : m.Inside s base) :
    m.Inside base .root := by
  have hunique : Relator.RightUnique m.Owned := fun _ _ _ => Owned.unique
  obtain h | h := ReflTransGen.total_of_right_unique hunique hs hb
  · obtain rfl | ⟨owner, ho, -⟩ := h.cases_head
    · exact .refl
    · rw [Owned, ht.root_owner] at ho
      cases ho
  · exact h

theorem attributes_withOperation (m : Model) (scope : TypeId) (op : Operation) (s : TypeId) :
    ((m.withOperation scope op).members s).attributes = (m.members s).attributes := by
  by_cases hs : s = scope
  · subst hs
    rw [members, members, withOperation, scope?_modifyScope_self]
    cases m.scope? s <;> rfl
  · rw [withOperation, members_modifyScope_of_ne hs]

theorem addOperation_eq_ok {op op' : Operation} (hok : addOperation s op m = .ok op' m') :
    ∃ target, memberScope s op.entity.scopePath TypeNode.isContainer m = .ok target m ∧
      (m.node target).isContainer = true ∧ m' = m.withOperation target op ∧
      op' = (m.members target).operations.stored m.libraryPrefix (m.ownedOperation target op) := by
  obtain ⟨_, m₀, hreq, hok⟩ := ModelM.bind_eq_ok hok
  obtain ⟨rfl, hc⟩ := (atomic_requireContainer s "operations").post hreq
  obtain ⟨target, m₁, hscope, hok⟩ := ModelM.bind_eq_ok hok
  obtain ⟨rfl, htarget⟩ :=
    (does_memberScope (p := .free) s op.entity.scopePath TypeNode.isContainer).post hscope
  cases hok
  exact ⟨target, hscope, htarget.elim (fun he => he ▸ hc) id, rfl, rfl⟩

theorem does_addOperation_keeps {op : Operation} (ht : p.Takes op) :
    Does p m (addOperation s op) fun _ m' =>
      KeepsTypes m m' ∧ ∀ s, (m'.members s).attributes = (m.members s).attributes where
  run := (does_addOperation ht).run
  post hok := by
    obtain ⟨target, -, -, rfl, -⟩ := addOperation_eq_ok hok
    exact ⟨.modifyScope fun _ => rfl, attributes_withOperation m target op⟩

theorem does_lookupType_keeps {query : String} {search : Search} (hs : Sound p m) :
    Does p m (lookupType s query search) fun _ m' =>
      KeepsTypes m m' ∧ ∀ s, (m'.members s).attributes.keys = (m.members s).attributes.keys where
  run := (does_lookupType s query search hs).run
  post hok := by
    have hready : Ready False m.size m := ⟨le_rfl, hs.isTree.knows_root, nofun⟩
    have hasks := asksWithin_lookupTypeTo (Q := fun _ => True) scriptDepth s query search m
      (hooksWithin_of_forall (fun _ => trivial) m)
    rw [← lookupType, ModelM.after, hok] at hasks
    exact ⟨.of_grows ((keeps_lookupType s query search hready).grows_of_ok hok) hs.isTree,
      hasks.attributes⟩

structure AddsAttribute (m m' : Model) (target : TypeId) (a : Attribute) : Prop
    extends KeepsTypes m m' where
  stored : (m'.members target).attributes.get? a.name = some a
  others : ∀ s, s ≠ target → (m'.members s).attributes.keys = (m.members s).attributes.keys

namespace AddsAttribute

variable {a : Attribute}

theorem withAttribute (hkeeps : KeepsTypes m m')
    (hkeys : ∀ s, (m'.members s).attributes.keys = (m.members s).attributes.keys)
    (hc : (m'.node target).isContainer = true) :
    AddsAttribute m (m'.withAttribute target a) target
      { a with entity := a.entity.setOwner (some target) (m'.scopePath target) } where
  toKeepsTypes := hkeeps.trans (.modifyScope fun _ => rfl)
  stored := by
    rw [Model.withAttribute, members_modifyScope hc]
    exact (OrderedMap.get?_insert ..).trans (if_pos rfl)
  others s hs := by rw [Model.withAttribute, members_modifyScope_of_ne hs, hkeys]

theorem later (h : AddsAttribute m m' target a) (hkeeps : KeepsTypes m' m'')
    (hsame : ∀ s, (m''.members s).attributes = (m'.members s).attributes) :
    AddsAttribute m m'' target a where
  toKeepsTypes := h.toKeepsTypes.trans hkeeps
  stored := by rw [hsame, h.stored]
  others s hs := by rw [hsame, h.others s hs]

end AddsAttribute

section Adding

variable (hs : Sound p m) (hcoherent : m.Coherent) (hinside : m.Inside s .root)
  (hp : ∀ part ∈ Path.components path, Name.IsIdentifier part)

include hs hcoherent hinside hp

theorem does_memberScope_lands {accept : TypeNode → Bool} :
    Does p m (memberScope s path accept) fun target m' => m = m' ∧
      ∃ base, Nearest m s (m.route s path) base target ∧ LandsIn m m s base path target := by
  have ht := hs.isTree
  unfold memberScope
  refine .get_bind ?_
  rw [isDirect_eq hp]
  split
  · next hnamed =>
    have hlands := LandsIn.of_named hnamed
    exact .pure ⟨rfl, s, .refl ht hlands.reached, hlands⟩
  · next hnamed =>
    split
    · next target hfound =>
      obtain ⟨base, hnearest⟩ := Nearest.of_findNestedUpTo ht (Option.mem_filter_iff.mp hfound).1
      have hbase := eq_root_or_owned_of_inside (ht.inside_root hinside hnearest.inside)
      rw [route, if_neg hnamed]
      exact .pure ⟨rfl, base, hnearest,
        .of_descend ht hcoherent hbase rfl hp hnamed hnearest.found⟩
    · exact .throw _

/-- An operation lands in the type that its path leads to from the nearest scope below which it
leads to one. -/
theorem addOperation_lands {op op' : Operation} (hpath : op.entity.scopePath = path)
    (hok : addOperation s op m = .ok op' m') :
    ∃ base target, Nearest m s (m.route s path) base target ∧ LandsIn m m' s base path target ∧
      op' ∈ (m'.members target).operations.overloads op.name ∧ op'.entity.owner = some target ∧
      op'.entity.fullName = Path.qualify (m.landingPath s base path) op.name ∧
      Spares target m m' := by
  obtain ⟨target, hscope, htarget, rfl, rfl⟩ := addOperation_eq_ok hok
  rw [hpath] at hscope
  obtain ⟨-, base, hnearest, hlands⟩ :=
    (does_memberScope_lands hs hcoherent hinside hp).post hscope
  have hsame := (m.members target).operations.sameDeclaration_stored m.libraryPrefix
    (m.ownedOperation target op)
  refine ⟨base, target, hnearest, hlands.modifyScope hs.isTree htarget fun _ => rfl, ?_,
    hsame.owner, ?_, .modifyScope fun _ => rfl⟩
  · rw [withOperation, members_modifyScope htarget]
    exact OperationTable.mem_overloads_insert ..
  · rw [Entity.fullName, hsame.scopePath, ← hlands.scopePath]
    exact congrArg (Path.qualify (m.scopePath target)) hsame.name

theorem does_addAttribute_lands {a : Attribute} (hpath : a.entity.scopePath = path) :
    Does p m (addAttribute s a) fun a' m' => ∃ base target,
      Nearest m s (m.route s path) base target ∧ LandsIn m m s base path target ∧
      m.Knows target ∧ a'.entity.owner = some target ∧
      a'.entity.fullName = Path.qualify (m.scopePath target) a.name ∧
      AddsAttribute m m' target a' := by
  unfold addAttribute
  rw [hpath]
  refine (does_memberScope_lands hs hcoherent hinside hp).bind ?_
  rintro target _ - ⟨rfl, base, hnearest, hlands⟩
  refine .get_bind ?_
  dsimp only
  split
  · exact .throw_bind _ _
  next hrecord =>
  split
  · exact .throw_bind _ _
  have hc : (m.node target).isContainer = true := by
    have hr : (m.node target).isRecord = true := by simpa using hrecord
    rw [TypeNode.isContainer_eq, hr, Bool.or_true]
  have hk := knows_of_isContainer hc
  have hset : ∀ m₁, KeepsTypes m m₁ →
      (∀ s, (m₁.members s).attributes.keys = (m.members s).attributes.keys) →
      Does p m₁ (set (m₁.withAttribute target a)) fun _ m' => AddsAttribute m m' target
        { a with entity := a.entity.setOwner (some target) (m₁.scopePath target) } :=
    fun m₁ hkeeps hkeys => .set .attributeAdded <|
      .withAttribute hkeeps hkeys ((hkeeps.identity target hk).isContainer.trans hc)
  refine .ofExcept_bind fun getter hg => ?_
  have hgetter : p.Takes getter := fun _ => Operation.isFresh_getter hg
  split
  · refine (does_lookupType_keeps hs).bind ?_
    rintro void m₁ hr ⟨hkeeps, hkeys⟩
    simp only [map_eq_pure_bind, bind_assoc, pure_bind]
    refine .ofExcept_bind fun setter hsetter => .get_bind ?_
    have hsetter : p.Takes setter := fun _ => Operation.isFresh_setter hsetter
    refine (hset m₁ hkeeps hkeys).bind fun _ m₂ _ h₂ => ?_
    refine (does_addOperation_keeps hgetter).bind fun _ m₃ _ h₃ => ?_
    refine (does_addOperation_keeps hsetter).bind fun _ m₄ _ h₄ => .pure ?_
    have hsamePath := hkeeps.scopePath_eq hs.isTree (hr.sound hs).isTree hk
    exact ⟨base, target, hnearest, hlands, hk, rfl, congrArg (Path.qualify · a.name) hsamePath,
      (h₂.later h₃.1 h₃.2).later h₄.1 h₄.2⟩
  · simp only [pure_bind]
    refine .get_bind ((hset m (.refl m) fun _ => rfl).bind fun _ m₂ _ h₂ => ?_)
    refine (does_addOperation_keeps hgetter).bind fun _ m₃ _ h₃ => .pure ?_
    exact ⟨base, target, hnearest, hlands, hk, rfl, rfl, h₂.later h₃.1 h₃.2⟩

/-- An attribute lands in the same type, while its accessors may go elsewhere. -/
theorem addAttribute_lands {a a' : Attribute} (hpath : a.entity.scopePath = path)
    (hok : addAttribute s a m = .ok a' m') :
    ∃ base target, Nearest m s (m.route s path) base target ∧ LandsIn m m' s base path target ∧
      a'.entity.owner = some target ∧
      a'.entity.fullName = Path.qualify (m.landingPath s base path) a.name ∧
      AddsAttribute m m' target a' := by
  have hdoes := does_addAttribute_lands hs hcoherent hinside hp hpath
  obtain ⟨base, target, hnearest, hlands, hk, howner, hname, hadds⟩ := hdoes.post hok
  have ht' := ((hdoes.run_of_ok hok).sound hs).isTree
  rw [hlands.scopePath] at hname
  exact ⟨base, target, hnearest, hlands.later hadds.toKeepsTypes hs.isTree ht' hk, howner, hname,
    hadds⟩

end Adding

/-- Declarations with a path land in the scope that the path names. Types and constants follow it
from `s`, operations and attributes from the nearest scope around `s` below which it leads to a
type; if it names `s` itself, all of them stay there. What lands is named by the path of its scope,
and nothing else changes: types that were there keep their owners and names, and other scopes, used
ones too, get no member of the kind. -/
theorem Reachable.declarations_land (h : Reachable p m) (hw : m.isWithin s .root = true)
    (hp : ∀ part ∈ Path.components path, Name.IsIdentifier part) :
    (∀ node id m', node.IsFresh .free → node.entity.scopePath = path →
      addType s node m = .ok id m' → ∃ target, LandsIn m m' s s path target ∧
        m'.type? target node.name = some id ∧ m'.owner? id = some target ∧
        m'.fullName id = Path.qualify (m.landingPath s s path) node.name ∧
        (∀ other name, m'.type? other name = some id → other = target) ∧ Spares target m m') ∧
    (∀ c c' m', c.entity.scopePath = path → addConstant s c m = .ok c' m' →
      ∃ target, LandsIn m m' s s path target ∧
        (m'.members target).constants.get? c.name = some c' ∧ c'.entity.owner = some target ∧
        c'.entity.fullName = Path.qualify (m.landingPath s s path) c.name ∧ Spares target m m') ∧
    (∀ op op' m', op.entity.scopePath = path → addOperation s op m = .ok op' m' →
      ∃ base target, Nearest m s (m.route s path) base target ∧ LandsIn m m' s base path target ∧
        op' ∈ (m'.members target).operations.overloads op.name ∧
        op'.entity.owner = some target ∧
        op'.entity.fullName = Path.qualify (m.landingPath s base path) op.name ∧
        Spares target m m') ∧
    ∀ a a' m', a.entity.scopePath = path → addAttribute s a m = .ok a' m' →
      ∃ base target, Nearest m s (m.route s path) base target ∧ LandsIn m m' s base path target ∧
        a'.entity.owner = some target ∧
        a'.entity.fullName = Path.qualify (m.landingPath s base path) a.name ∧
        AddsAttribute m m' target a' := by
  have hs := h.sound
  have hinside := hs.isTree.isWithin_iff.mp hw
  have hjoined := eq_root_or_owned_of_inside hinside
  exact ⟨fun _ _ _ => addType_lands hs h.coherent hjoined hp,
    fun _ _ _ => addConstant_lands hs h.coherent hjoined hp,
    fun _ _ _ => addOperation_lands hs h.coherent hinside hp,
    fun _ _ _ => addAttribute_lands hs h.coherent hinside hp⟩

/-- `app` has a namespace `detail` and uses `cv`, which has one too. A class and an operation that
are declared at `detail` in `app` belong to `app::detail`. -/
theorem declarations_land_past_used : ∃ m, Reachable .free m ∧
    (m.members ⟨3⟩).used = [⟨1⟩] ∧ m.descend? ⟨1⟩ ["detail"] = some ⟨2⟩ ∧
    (∃ id m', addType ⟨3⟩ (declaration .classType "detail" "X") m = .ok id m' ∧
      m'.owner? id = some ⟨4⟩ ∧ m'.fullName id = "app::detail::X") ∧
    ∃ op m', addOperation ⟨3⟩ { entity := { name := "run", scopePath := "detail" } } m = .ok op m' ∧
      op.entity.owner = some ⟨4⟩ ∧ op.entity.fullName = "app::detail::run" := by
  let actions : List Action :=
    [.addType .root (declaration .namespaceType "cv" "detail") true,
     .addType .root (declaration .namespaceType "app" "detail") true,
     .useNamespace ⟨3⟩ ⟨1⟩]
  have h : Reachable .free (bare.afterAll actions) := by
    refine reachable_bare.afterAll ?_
    simp only [actions, List.forall_mem_cons, List.not_mem_nil, false_imp_iff, implies_true,
      and_true]
    exact ⟨fun _ => isFresh_declaration nofun nofun, fun _ => isFresh_declaration nofun nofun,
      fun _ => trivial⟩
  have hw : (bare.afterAll actions).isWithin ⟨3⟩ .root = true := by decide +kernel
  have hword : ∀ part ∈ Path.components "detail", Name.IsWord part := by decide +kernel
  have hp : ∀ part ∈ Path.components "detail", Name.IsIdentifier part := fun part hpart =>
    (hword part hpart).toIsIdentifier
  have hdirect : (bare.afterAll actions).descend? ⟨3⟩
      ((bare.afterAll actions).route ⟨3⟩ "detail") = some ⟨4⟩ := by decide +kernel
  have hpath : (bare.afterAll actions).landingPath ⟨3⟩ ⟨3⟩ "detail" = "app::detail" := by
    decide +kernel
  obtain ⟨htypes, -, hoperations, -⟩ := h.declarations_land hw hp
  obtain ⟨id, hid⟩ := sizeAfterFailure_eq_none (m := bare.afterAll actions)
    (x := addType ⟨3⟩ (declaration .classType "detail" "X")) (by decide +kernel)
  obtain ⟨op, hop⟩ := sizeAfterFailure_eq_none (m := bare.afterAll actions)
    (x := addOperation ⟨3⟩ { entity := { name := "run", scopePath := "detail" } })
    (by decide +kernel)
  refine ⟨_, h, by decide +kernel, by decide +kernel, ⟨id, _, hid, ?_⟩, op, _, hop, ?_⟩
  · obtain ⟨target, hlands, -, ho, hname, -, hspares⟩ :=
      htypes _ _ _ (isFresh_declaration nofun nofun) rfl hid
    obtain rfl := Option.some.inj (hlands.reached.symm.trans (hspares.descend?_eq hdirect))
    rw [hpath] at hname
    exact ⟨ho, hname⟩
  · obtain ⟨base, target, hnearest, -, -, ho, hname, -⟩ := hoperations _ _ _ rfl hop
    -- no scope further out is asked
    obtain rfl : base = ⟨3⟩ := by
      by_contra hne
      rw [hnearest.first ⟨3⟩ .refl hnearest.inside (Ne.symm hne)] at hdirect
      cases hdirect
    obtain rfl := Option.some.inj (hnearest.found.symm.trans hdirect)
    rw [hpath] at hname
    exact ⟨ho, hname⟩

end Model

end ApiModel
