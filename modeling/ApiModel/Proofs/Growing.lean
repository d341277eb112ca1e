import ApiModel.Proofs.Declaring

/-!
What declarations and lookups leave alone. They add nodes and members, but take away only what they
have added themselves: with a number `n` of nodes fixed, `Grows` says what becomes of the first
`n` ones. Where templates are tame it says more, since then all new types bear names with brackets.
`Keeps` says this of a program, with one rule for each way of building programs.
-/

namespace ApiModel

/-- Whatever it learns, the script only reads, looks types up and adds operations. -/
def Script.Tame : Script → Prop
  | done _ => True
  | nameOf _ next => ∀ name, (next name).Tame
  | signatureOf _ next => ∀ text, (next text).Tame
  | lookup _ _ _ next => ∀ result, (next result).Tame
  | addOperation _ _ next => ∀ result, (next result).Tame
  | declare .. | installHook .. | removeHook .. => False

def Specializer.Tame (specializer : Specializer) : Prop :=
  ∀ id arguments, (specializer.fill id arguments).Tame

/-- What becomes of the members of a scope. Types with numbers below `n` stay listed, also under
their further names, and no further names are added. -/
structure Scope.Kept (tame : Prop) (n : Nat) (a b : Scope) : Prop where
  listed : ∀ {name id}, id.index < n → a.types.get? name = some id → b.types.get? name = some id
  aliased : ∀ {name ty}, ty.base.index < n → a.typeAliases.get? name = some ty →
    b.typeAliases.get? name = some ty
  ofAliased : ∀ {name ty}, b.typeAliases.get? name = some ty → a.typeAliases.get? name = some ty
  used : b.used = a.used
  plain : tame → ∀ {name}, '<' ∉ name.toList → b.types.get? name = a.types.get? name

namespace Scope.Kept

variable {tame : Prop} {n : Nat} {a b c : Scope} {id : TypeId} {name : String}

theorem refl (a : Scope) : a.Kept tame n a :=
  ⟨fun _ h => h, fun _ h => h, fun h => h, rfl, fun _ _ _ => rfl⟩

theorem trans (h : a.Kept tame n b) (h' : b.Kept tame n c) : a.Kept tame n c where
  listed hn he := h'.listed hn (h.listed hn he)
  aliased hn he := h'.aliased hn (h.aliased hn he)
  ofAliased he := h.ofAliased (h'.ofAliased he)
  used := h'.used.trans h.used
  plain ht _ hname := (h'.plain ht hname).trans (h.plain ht hname)

theorem mono {n' : Nat} (h : a.Kept tame n b) (hn : n' ≤ n) : a.Kept tame n' b where
  listed hi := h.listed (Nat.lt_of_lt_of_le hi hn)
  aliased hi := h.aliased (Nat.lt_of_lt_of_le hi hn)
  ofAliased := h.ofAliased
  used := h.used
  plain := h.plain

theorem of_eq (types : b.types = a.types) (typeAliases : b.typeAliases = a.typeAliases)
    (used : b.used = a.used) : a.Kept tame n b := by
  refine ⟨fun _ h => ?_, fun _ h => ?_, fun h => ?_, used, fun _ _ _ => ?_⟩
  · rwa [types]
  · rwa [typeAliases]
  · rwa [← typeAliases]
  · rw [types]

theorem enterType {entity : Entity} (ha : entity.aliasName = none)
    (hfree : a.types.get? entity.name = none) (ht : tame → '<' ∈ entity.name.toList) :
    a.Kept tame n (a.enterType entity id) := by
  simp only [Scope.enterType, ha]
  refine ⟨fun _ h => ?_, fun _ h => h, fun h => h, rfl, fun htame name hname => ?_⟩
  · rw [OrderedMap.get?_insert, if_neg]
    · exact h
    · rintro rfl
      exact absurd (hfree.symm.trans h) nofun
  · rw [OrderedMap.get?_insert, if_neg]
    rintro rfl
    exact hname (ht htame)

theorem removeType (hn : n ≤ id.index) (ht : tame → '<' ∈ name.toList) :
    a.Kept tame n (a.removeType name id) := by
  refine ⟨fun {name' id'} hi h => ?_, fun {name' ty} hi h => ?_, fun h => ?_, rfl,
    fun htame name' hname => ?_⟩
  · simp only [Scope.removeType]
    split
    · next hlisted =>
      rw [OrderedMap.get?_erase, if_neg]
      · exact h
      · rintro rfl
        obtain rfl := Option.some.inj (hlisted.symm.trans h)
        omega
    · exact h
  · have hne : ty ≠ .raw id := by
      rintro rfl
      exact absurd hi (Nat.not_lt.mpr hn)
    simp [Scope.removeType, OrderedMap.get?_filter, h, Option.filter, hne]
  · rw [Scope.removeType, OrderedMap.get?_filter] at h
    exact (Option.mem_filter_iff.mp h).1
  · simp only [Scope.removeType]
    split
    · rw [OrderedMap.get?_erase, if_neg]
      rintro rfl
      exact hname (ht htame)
    · rfl

end Scope.Kept

structure TypeNode.SameIdentity (a b : TypeNode) : Prop extends a.SameKind b where
  name : b.name = a.name
  scopePath : b.entity.scopePath = a.entity.scopePath
  owner : b.entity.owner = a.entity.owner

namespace TypeNode.SameIdentity

variable {a b c : TypeNode}

theorem refl (a : TypeNode) : a.SameIdentity a := ⟨.refl a, rfl, rfl, rfl⟩

theorem trans (h : a.SameIdentity b) (h' : b.SameIdentity c) : a.SameIdentity c where
  toSameKind := h.toSameKind.trans h'.toSameKind
  name := h'.name.trans h.name
  scopePath := h'.scopePath.trans h.scopePath
  owner := h'.owner.trans h.owner

theorem fullName (h : a.SameIdentity b) : b.fullName = a.fullName := by
  have hname : b.entity.name = a.entity.name := h.name
  rw [TypeNode.fullName, TypeNode.fullName, Entity.fullName, Entity.fullName, h.scopePath, hname]

theorem mapScope (f : Scope → Scope) (a : TypeNode) : a.SameIdentity (a.mapScope f) :=
  ⟨.mapScope f a, a.name_mapScope f, by rw [entity_mapScope], by rw [entity_mapScope]⟩

theorem of_annotated {p : Policy} (h : a.Annotated p b) : a.SameIdentity b :=
  ⟨h.toSameKind, h.name, h.scopePath, h.owner⟩

end TypeNode.SameIdentity

/-- A new node that holds nothing, neither members nor an alias nor a script. -/
structure TypeNode.IsSimple (node : TypeNode) : Prop extends node.IsBlank where
  aliasName : node.entity.aliasName = none
  specializer : node.specializer? = none

theorem PlainKind.isSimple_of_ofName {kind : PlainKind} {name : String} {node : TypeNode}
    (h : TypeNode.ofName name kind.toTypeKind = .ok node) : node.IsSimple := by
  have hfresh : node.IsFresh .free := isFresh_of_ofName h nofun
  obtain ⟨e, he, rfl⟩ := TypeNode.ofName_eq_ok h
  obtain ⟨path, -, rfl⟩ := Entity.ofName_eq_ok he
  exact ⟨hfresh.toIsBlank, rfl, (scope?_of_ofName h).2⟩

theorem TypeNode.isSimple_specialized (name : String) (made : Specialization) :
    (specialized name made).IsSimple :=
  ⟨⟨rfl, fun _ h => by cases h; rfl, rfl⟩, rfl, rfl⟩

namespace Model

variable {tame : Prop} {n n' : Nat} {m m' m'' : Model} {id scope : TypeId} {node : TypeNode}

/-- What a scope holds; there is nothing in a type that is no scope. -/
def members (m : Model) (s : TypeId) : Scope := (m.scope? s).getD {}

theorem members_of_scope {s : TypeId} {a : Scope} (h : m.scope? s = some a) : m.members s = a := by
  rw [members, h, Option.getD_some]

theorem type?_eq_get?_members (m : Model) (s : TypeId) (name : String) :
    m.type? s name = (m.members s).types.get? name := by
  rw [type?, members]
  cases m.scope? s <;> rfl

theorem members_modifyScope {f : Scope → Scope} (hc : (m.node scope).isContainer = true) :
    (m.modifyNode scope (·.mapScope f)).members scope = f (m.members scope) := by
  obtain ⟨a, ha⟩ := isContainer_iff.mp hc
  rw [members, scope?_modifyScope_self, ha, members_of_scope ha, Option.map_some, Option.getD_some]

theorem members_modifyScope_of_ne {f : Scope → Scope} {s : TypeId} (hs : s ≠ scope) :
    (m.modifyNode scope (·.mapScope f)).members s = m.members s := by
  rw [members, scope?_modifyScope_of_ne _ hs, ← members]

theorem members_allocated_of_isBlank (hn : node.IsBlank) (s : TypeId) :
    (m.allocated node).members s = m.members s := by
  by_cases hs : s = m.next
  · have hempty : (m.allocated node).members s = {} := by
      rw [members, scope?, hs, node_allocated_next]
      cases hscope : node.scope? with
      | none => rfl
      | some a => exact hn.members a hscope
    rw [hempty, members, scope?, node_of_not_knows (hs ▸ not_knows_next)]
    rfl
  · rw [members, members, scope?, scope?, node_allocated_of_ne hs]

/-- No hook is installed, and the templates fill their classes with operations only. -/
structure Tame (m : Model) : Prop where
  hook : m.hook = none
  specializer : ∀ id specializer, (m.node id).specializer? = some specializer → specializer.Tame

/-- How the second model comes from the first one where the first `n` nodes stay what they are. -/
structure Grows (tame : Prop) (n : Nat) (m m' : Model) : Prop where
  size_le : m.size ≤ m'.size
  journal_prefix : m.journal <+: m'.journal
  members : ∀ s, (m.members s).Kept tame n (m'.members s)
  identity : ∀ id, id.index < n → (m.node id).SameIdentity (m'.node id)
  silent : tame → m'.journal = m.journal
  tame : tame → m.Tame → m'.Tame

namespace Grows

theorem refl (m : Model) : Grows tame n m m :=
  ⟨le_rfl, List.prefix_rfl, fun _ => .refl _, fun _ _ => .refl _, fun _ => rfl, fun _ h => h⟩

theorem trans (h : Grows tame n m m') (h' : Grows tame n m' m'') : Grows tame n m m'' where
  size_le := h.size_le.trans h'.size_le
  journal_prefix := h.journal_prefix.trans h'.journal_prefix
  members s := (h.members s).trans (h'.members s)
  identity id hi := (h.identity id hi).trans (h'.identity id hi)
  silent ht := (h'.silent ht).trans (h.silent ht)
  tame ht hm := h'.tame ht (h.tame ht hm)

theorem mono (h : Grows tame n m m') (hn : n' ≤ n) : Grows tame n' m m' where
  size_le := h.size_le
  journal_prefix := h.journal_prefix
  members s := (h.members s).mono hn
  identity id hi := h.identity id (Nat.lt_of_lt_of_le hi hn)
  silent := h.silent
  tame := h.tame

theorem listed (h : Grows tame n m m') {s : TypeId} {name : String} (hi : id.index < n)
    (hl : m.type? s name = some id) : m'.type? s name = some id := by
  rw [type?_eq_get?_members] at hl ⊢
  exact (h.members s).listed hi hl

theorem knows (h : Grows tame n m m') (hk : m.Knows id) : m'.Knows id :=
  Nat.lt_of_lt_of_le hk h.size_le

theorem modifyNode {f : TypeNode → TypeNode}
    (hm : (m.members id).Kept tame n ((m.modifyNode id f).members id))
    (hi : id.index < n → (m.node id).SameIdentity (f (m.node id)))
    (hs : (f (m.node id)).specializer? = (m.node id).specializer?) :
    Grows tame n m (m.modifyNode id f) where
  size_le := by rw [size_modifyNode]
  journal_prefix := List.prefix_rfl
  members s := by
    by_cases h : s = id
    · rw [h]
      exact hm
    · rw [Model.members, Model.members, scope?, scope?, node_modifyNode_of_ne _ h]
      exact .refl _
  identity j hj := by
    by_cases h : j = id
    · subst h
      by_cases hk : m.Knows j
      · rw [node_modifyNode_self _ hk]
        exact hi hj
      · rw [node_of_not_knows hk, node_of_not_knows (by simpa using hk)]
        exact .refl _
    · rw [node_modifyNode_of_ne _ h]
      exact .refl _
  tame _ ht := by
    refine ⟨ht.hook, fun j specializer hj => ht.specializer j specializer ?_⟩
    rw [← hj]
    exact (rel_modifyNode (R := fun a b => a.specializer? = b.specializer?) (fun _ => rfl)
      hs.symm j)
  silent _ := rfl

theorem modifyScope {f : Scope → Scope} (hf : ∀ a, m.scope? id = some a → a.Kept tame n (f a)) :
    Grows tame n m (m.modifyNode id (·.mapScope f)) := by
  refine modifyNode ?_ (fun _ => .mapScope f _) (TypeNode.specializer?_mapScope f _)
  rw [Model.members, Model.members, scope?_modifyScope_self]
  cases h : m.scope? id with
  | none => exact .refl _
  | some a => exact hf a h

theorem modifyEntity {f : Entity → Entity} (hn : n ≤ id.index) :
    Grows tame n m (m.modifyNode id (·.mapEntity f)) := by
  refine modifyNode ?_ (fun hi => absurd hi (Nat.not_lt.mpr hn)) rfl
  rw [Model.members, Model.members, scope?_modifyEntity]
  exact .refl _

theorem allocated (hn : n ≤ m.size) (hb : node.IsBlank) (hs : tame → node.specializer? = none) :
    Grows tame n m (m.allocated node) where
  size_le := by simp
  journal_prefix := List.prefix_rfl
  members s := by
    rw [members_allocated_of_isBlank hb]
    exact .refl _
  identity j hj := by
    have hne : j ≠ m.next := ne_next_of_knows (Nat.lt_of_lt_of_le hj hn)
    rw [node_allocated_of_ne hne]
    exact .refl _
  tame ht hm := by
    refine ⟨hm.hook, fun j specializer hj => ?_⟩
    by_cases h : j = m.next
    · rw [h, node_allocated_next, hs ht] at hj
      cases hj
    · rw [node_allocated_of_ne h] at hj
      exact hm.specializer j specializer hj
  silent _ := rfl

end Grows

theorem modifyNode_eq_self {f : TypeNode → TypeNode} (h : f (m.node id) = m.node id) :
    m.modifyNode id f = m := by
  have hnodes : m.nodes.modify id.index f = m.nodes := by
    refine Array.ext (Array.size_modify ..) fun i hi hi' => ?_
    rw [Array.getElem_modify]
    split
    · next he =>
      subst he
      rw [node, Array.getD_eq_getD_getElem?, Array.getElem?_eq_getElem hi', Option.getD_some] at h
      exact h
    · rfl
  rw [modifyNode, hnodes]

theorem refreshPaths_of_empty (h : ∀ a, m.scope? id = some a → a = {}) :
    refreshPaths id m = m := by
  rw [refreshPaths, refreshPathsTo]
  cases hs : m.scope? id with
  | none => rfl
  | some a =>
    obtain rfl := h a hs
    refine modifyNode_eq_self ?_
    have hk : ∃ kind, (m.node id).kind = .container kind {} := by
      rw [scope?, TypeNode.scope?] at hs
      split at hs
      · next kind members hk => exact ⟨kind, hk.trans (by rw [Option.some.inj hs])⟩
      · cases hs
    obtain ⟨kind, hk⟩ := hk
    rw [TypeNode.mapScope, hk]
    dsimp only
    rw [show Scope.setMemberPaths (m.scopePath id) {} = {} from rfl, ← hk]

theorem linked_of_blank (hne : scope ≠ id) (hb : (m.node id).IsBlank) :
    m.linked scope id = (m.claimed scope id).entered scope id := by
  refine refreshPaths_of_empty fun a hs => ?_
  rw [entered, scope?_modifyScope_of_ne _ hne.symm, claimed, scope?_modifyEntity] at hs
  exact hb.members a hs

section LinkedNext

variable (hc : (m.node scope).isContainer = true) (hn : node.IsBlank)

include hc hn

theorem linked_next_eq : (m.allocated node).linked scope m.next =
    ((m.allocated node).claimed scope m.next).entered scope m.next := by
  refine linked_of_blank (ne_next_of_knows (knows_of_isContainer hc)) ?_
  rwa [node_allocated_next]

theorem node_linked_next : ((m.allocated node).linked scope m.next).node m.next =
    node.mapEntity (·.setOwner (some scope) (m.scopePath scope)) := by
  have hne := ne_next_of_knows (knows_of_isContainer hc)
  rw [linked_next_eq hc hn, entered, node_modifyScope, if_neg hne.symm, claimed,
    node_modifyNode_self _ (by simp [Knows, next]), node_allocated_next]
  simp only [scopePath, fullName, node_allocated_of_ne hne]

theorem node_linked_next_of_ne (hid : id ≠ m.next) :
    ((m.allocated node).linked scope m.next).node id =
      if id = scope then
        (m.node id).mapScope
          (·.enterType (node.entity.setOwner (some scope) (m.scopePath scope)) m.next)
      else m.node id := by
  have hnext := congrArg TypeNode.entity (node_linked_next hc hn)
  rw [linked_next_eq hc hn, entered, entity_modifyScope] at hnext
  rw [linked_next_eq hc hn, entered, node_modifyScope, hnext, claimed,
    node_modifyNode_of_ne _ hid, node_allocated_of_ne hid]
  rfl

theorem members_linked_next_of_ne {s : TypeId} (hs : s ≠ scope) :
    ((m.allocated node).linked scope m.next).members s = m.members s := by
  by_cases hnext : s = m.next
  · rw [members, scope?, hnext, node_linked_next hc hn, TypeNode.scope?_mapEntity,
      members, scope?, node_of_not_knows not_knows_next]
    cases ha : node.scope? with
    | none => rfl
    | some a => exact hn.members a ha
  · rw [members, scope?, node_linked_next_of_ne hc hn hnext, if_neg hs, ← scope?,
      ← members]

theorem members_linked_next :
    ((m.allocated node).linked scope m.next).members scope =
      (m.members scope).enterType (node.entity.setOwner (some scope) (m.scopePath scope))
        m.next := by
  obtain ⟨a, ha⟩ := isContainer_iff.mp hc
  rw [members, scope?,
    node_linked_next_of_ne hc hn (ne_next_of_knows (knows_of_isContainer hc)), if_pos rfl,
    TypeNode.scope?_mapScope, ← scope?, ha, members_of_scope ha]
  rfl

theorem type?_linked_next (s : TypeId) (name : String) :
    ((m.allocated node).linked scope m.next).type? s name =
      if s = scope ∧ name = node.name then some m.next else m.type? s name := by
  rw [type?_eq_get?_members, type?_eq_get?_members]
  by_cases hs : s = scope
  · rw [hs, members_linked_next hc hn, types_enterType, OrderedMap.get?_insert]
    simp [Entity.setOwner, Entity.touch, TypeNode.name, eq_comm]
  · rw [members_linked_next_of_ne hc hn hs, if_neg fun h => hs h.1]

end LinkedNext

namespace Grows

theorem linked (hn : n ≤ id.index) (hne : scope ≠ id) (hb : (m.node id).IsBlank)
    (ha : (m.node id).entity.aliasName = none) (hfree : m.type? scope (m.node id).name = none)
    (ht : tame → '<' ∈ (m.node id).name.toList) : Grows tame n m (m.linked scope id) := by
  have hname : ((m.claimed scope id).node id).entity.name = (m.node id).name ∧
      ((m.claimed scope id).node id).entity.aliasName = none := by
    refine ⟨name_claimed id, ?_⟩
    by_cases hk : m.Knows id
    · rw [claimed, entity_modifyEntity_self _ hk]
      exact ha
    · rw [claimed, node_modifyEntity_of_not_knows _ _ hk]
      exact ha
  have hclaimed : Grows tame n m (m.claimed scope id) := modifyEntity hn
  have hentered : Grows tame n (m.claimed scope id) ((m.claimed scope id).entered scope id) := by
    refine modifyScope fun a hs => .enterType hname.2 ?_ ?_
    · rw [claimed, scope?_modifyEntity] at hs
      rw [hname.1]
      rwa [type?_eq_get?_members, members_of_scope hs] at hfree
    · rw [hname.1]
      exact ht
  rw [linked_of_blank hne hb]
  exact hclaimed.trans hentered

theorem released {owner : TypeId} (hn : n ≤ id.index)
    (ht : tame → '<' ∈ (m.node id).name.toList) : Grows tame n m (m.released owner id) :=
  (modifyScope fun _ _ => .removeType hn ht).trans (modifyEntity hn)

/-- The hook and its journal may change unless the model has to stay tame. -/
theorem consulted {hook : Option Hook} {journal : List Consultation} (hw : ¬ tame)
    (hj : m.journal <+: journal) : Grows tame n m { m with hook, journal } where
  size_le := le_rfl
  journal_prefix := hj
  members _ := .refl _
  identity _ _ := .refl _
  silent ht := absurd ht hw
  tame ht := absurd ht hw

end Grows

variable {α β : Type} {x : ModelM α} {Q Q' : α → Model → Prop} {R : β → Model → Prop}

/-- What programs start from: there are at least `n` nodes and a root, and the model is tame if it
has to be. -/
structure Ready (tame : Prop) (n : Nat) (m : Model) : Prop where
  size : n ≤ m.size
  root : m.Knows .root
  tame : tame → m.Tame

theorem Ready.grows (h : Ready tame n m) (he : Grows tame n m m') : Ready tame n m' where
  size := h.size.trans he.size_le
  root := he.knows h.root
  tame ht := he.tame ht (h.tame ht)

/-- The first `n` nodes stay what they are, also when the program fails, and `post` holds if it
succeeds. -/
structure Keeps (tame : Prop) (n : Nat) (m : Model) (x : ModelM α) (post : α → Model → Prop) :
    Prop where
  grows : Grows tame n m (x.after m)
  post : ∀ {a m'}, x m = .ok a m' → post a m'

namespace Keeps

theorem grows_of_ok (h : Keeps tame n m x Q) {a : α} (ha : x m = .ok a m') :
    Grows tame n m m' := by
  have he := h.grows
  rwa [ModelM.after, ha] at he

theorem grows_of_error (h : Keeps tame n m x Q) {e : ModelError} (ha : x m = .error e m') :
    Grows tame n m m' := by
  have he := h.grows
  rwa [ModelM.after, ha] at he

theorem of_ok {a : α} (h : x m = .ok a m') (he : Grows tame n m m') (hq : Q a m') :
    Keeps tame n m x Q where
  grows := by rwa [ModelM.after, h]
  post h' := by
    rw [h] at h'
    cases h'
    exact hq

theorem of_error {e : ModelError} (h : x m = .error e m') (he : Grows tame n m m') :
    Keeps tame n m x Q where
  grows := by rwa [ModelM.after, h]
  post h' := by
    rw [h] at h'
    cases h'

theorem mono (h : Keeps tame n m x Q)
    (hQ : ∀ a m', Grows tame n m m' → Q a m' → Q' a m') : Keeps tame n m x Q' where
  grows := h.grows
  post ha := hQ _ _ (h.grows_of_ok ha) (h.post ha)

theorem pure {a : α} (h : Q a m) : Keeps tame n m (pure a) Q := of_ok rfl (.refl m) h

theorem throw (e : ModelError) : Keeps tame n m (throw e : ModelM α) Q := of_error rfl (.refl m)

theorem bind_eq {f : α → ModelM β} (hx : Keeps tame n m x Q)
    (hf : ∀ a m', x m = .ok a m' → Q a m' → Keeps tame n m' (f a) R) :
    Keeps tame n m (x >>= f) R := by
  cases h : x m with
  | ok a m' =>
    have hb : (x >>= f) m = f a m' := by rw [ModelM.bind_apply, h]
    have hrest := hf a m' h (hx.post h)
    refine ⟨?_, fun ha => hrest.post (hb ▸ ha)⟩
    rw [ModelM.after, hb]
    exact (hx.grows_of_ok h).trans hrest.grows
  | error e m' =>
    have hb : (x >>= f) m = .error e m' := by rw [ModelM.bind_apply, h]
    exact of_error hb (hx.grows_of_error h)

theorem bind {f : α → ModelM β} (hx : Keeps tame n m x Q)
    (hf : ∀ a m', Grows tame n m m' → Q a m' → Keeps tame n m' (f a) R) :
    Keeps tame n m (x >>= f) R :=
  hx.bind_eq fun a m' h hq => hf a m' (hx.grows_of_ok h) hq

theorem get_bind {f : Model → ModelM β} (h : Keeps tame n m (f m) R) :
    Keeps tame n m (get >>= f) R := ⟨h.grows, fun ha => h.post ha⟩

theorem throw_bind (e : ModelError) (f : α → ModelM β) :
    Keeps tame n m ((MonadExcept.throw e : ModelM α) >>= f) R := of_error rfl (.refl m)

theorem ofExcept_bind {e : Except ModelError α} {f : α → ModelM β}
    (h : ∀ a, e = .ok a → Keeps tame n m (f a) R) :
    Keeps tame n m (ModelM.ofExcept e >>= f) R := by
  cases e with
  | ok a => exact h a rfl
  | error e => exact throw_bind e f

end Keeps

theorem keeps_requireContainer (id : TypeId) (what : String) :
    Keeps tame n m (requireContainer id what) fun _ m' => m = m' ∧ m.Knows id := by
  unfold requireContainer
  apply Keeps.get_bind
  split
  · next h => exact .pure ⟨rfl, knows_of_isContainer h⟩
  · exact .throw _

theorem keeps_addOperation {op : Operation} :
    Keeps tame n m (addOperation scope op) fun _ _ => True := by
  unfold addOperation
  refine (keeps_requireContainer scope _).bind fun _ m' _ _ => ?_
  have hscope : Keeps tame n m' (memberScope scope op.entity.scopePath TypeNode.isContainer)
      fun _ _ => True := by
    unfold memberScope
    apply Keeps.get_bind
    split
    · exact .pure trivial
    · split
      · exact .pure trivial
      · exact .throw _
  refine hscope.bind fun target m' _ _ => ?_
  unfold storeOperation
  apply Keeps.get_bind
  have hset : Keeps tame n m' (set (m'.withOperation target op)) fun _ _ => True :=
    .of_ok rfl (.modifyScope fun _ _ => .of_eq rfl rfl rfl) trivial
  exact hset.bind fun _ _ _ _ => .pure trivial

/-- The node is there and has the name, under which the scope lists it. -/
structure EntersAs (m : Model) (scope : TypeId) (name : String) (id : TypeId) : Prop where
  known : m.Knows id
  named : (m.node id).name = name
  listed : m.type? scope name = some id

theorem entersAs_linked_next (hc : (m.node scope).isContainer = true) (hn : node.IsBlank) :
    ((m.allocated node).linked scope m.next).EntersAs scope node.name m.next where
  known := by simp [Knows, next]
  named := by rw [node_linked_next hc hn]; rfl
  listed := by rw [type?_linked_next hc hn, if_pos ⟨rfl, rfl⟩]

theorem keeps_allocate_attach (hr : Ready tame n m) (hn : node.IsSimple) (hk : m.Knows scope)
    (hfree : m.type? scope node.name = none) (ht : tame → '<' ∈ node.name.toList) :
    Keeps tame n m (do let id ← allocate node; attach scope id; return id) fun id m' =>
      id = m.next ∧ m'.EntersAs scope node.name id := by
  have halloc : Keeps tame n m (allocate node) fun id m' => id = m.next ∧ m' = m.allocated node :=
    .of_ok rfl (.allocated hr.size hn.toIsBlank fun _ => hn.specializer) ⟨rfl, rfl⟩
  refine halloc.bind ?_
  rintro _ _ - ⟨rfl, rfl⟩
  have hne := ne_next_of_knows hk
  have hi : n ≤ m.next.index := hr.size
  cases hc : ((m.allocated node).node scope).isContainer with
  | true =>
    have hlinked : Grows tame n (m.allocated node) ((m.allocated node).linked scope m.next) := by
      refine .linked hi hne ?_ ?_ ?_ ?_ <;> rw [node_allocated_next]
      · exact hn.toIsBlank
      · exact hn.aliasName
      · rwa [type?, scope?, node_allocated_of_ne hne]
      · exact ht
    have hattach : Keeps tame n (m.allocated node) (attach scope m.next) fun _ m' =>
        m' = (m.allocated node).linked scope m.next := .of_ok (attach_eq hc) hlinked rfl
    refine hattach.bind ?_
    rintro _ _ - rfl
    rw [node_allocated_of_ne hne] at hc
    exact .pure ⟨rfl, entersAs_linked_next hc hn.toIsBlank⟩
  | false =>
    obtain ⟨failure, he⟩ := attach_eq_error m.next hc
    have hattach : Keeps tame n (m.allocated node) (attach scope m.next) fun _ _ => False :=
      .of_error he (.modifyEntity hi)
    exact hattach.bind fun _ _ _ h => h.elim

theorem keeps_enterNamespace {name : String} (hr : Ready tame n m) (hk : m.Knows scope)
    (hname : name = "" ∨ Entity.ofName name = .ok { name }) (hw : ¬ tame) :
    Keeps tame n m (enterNamespace scope name) fun id m' => m'.Knows id := by
  unfold enterNamespace
  split
  · exact .pure hr.root
  · next hne =>
    apply Keeps.get_bind
    split
    · next id _ =>
      refine (keeps_requireContainer id _).bind ?_
      rintro - _ - ⟨rfl, hc⟩
      exact .pure hc
    · next hfree =>
      refine .ofExcept_bind fun node h => ?_
      have hsimple := PlainKind.isSimple_of_ofName h
      have hname' : node.name = name := by
        rw [TypeNode.ofName, hname.resolve_left hne] at h
        cases h
        rfl
      refine (keeps_allocate_attach hr hsimple hk (hname' ▸ hfree) fun ht => absurd ht hw).mono ?_
      exact fun _ _ _ h => h.2.known

theorem keeps_addNamespace {path : String} (hr : Ready tame n m) (hk : m.Knows scope)
    (hw : ¬ tame) : Keeps tame n m (addNamespace scope path) fun id m' => m'.Knows id := by
  unfold addNamespace
  refine .ofExcept_bind fun path' hn => ?_
  have hparts : ∀ part ∈ Path.components path',
      part = "" ∨ Entity.ofName part = .ok { name := part } := fun part hp => by
    by_cases he : part = ""
    · exact .inl he
    · exact .inr (Entity.ofName_of_mem_components (Name.isNormal_of_normalize hn) hp he)
  generalize Path.components path' = parts at hparts
  induction parts generalizing scope m with
  | nil => exact .pure hk
  | cons part parts ih =>
    rw [List.foldlM_cons]
    obtain ⟨hpart, hparts⟩ := List.forall_mem_cons.mp hparts
    refine (keeps_enterNamespace hr hk hpart hw).bind fun id m' he hk' => ?_
    exact ih (hr.grows he) hk' hparts

theorem keeps_declarationScope {path : String} (hr : Ready tame n m) (hk : m.Knows scope)
    (ht : tame → path = "") :
    Keeps tame n m (declarationScope scope path) fun id m' => m'.Knows id := by
  unfold declarationScope
  apply Keeps.get_bind
  split
  · exact .pure hk
  · next hpath =>
    refine keeps_addNamespace hr hk fun h => hpath ?_
    simp [ht h]

/-- A new type is added, or one that is there is completed; none is replaced. -/
theorem keeps_enterType (hr : Ready tame n m) (hn : node.IsSimple) (hk : m.Knows scope)
    (ht : tame → '<' ∈ node.name.toList) :
    Keeps tame n m (enterType scope node true) fun _ _ => True := by
  unfold enterType
  apply Keeps.get_bind
  split
  · next existing _ =>
    split
    · exact .pure trivial
    · split
      · have hadopt : (m.node existing).Annotated .free ((m.node existing).adopt node) :=
          .adopt (fun text h => absurd (hn.aliasName.symm.trans h) nofun) _
        have hscope : (m.modifyNode existing (·.adopt node)).scope? existing = m.scope? existing :=
          (rel_modifyNode (R := TypeNode.Annotated .free) .refl hadopt existing).scope
        have hwrite : Grows tame n m (m.modifyNode existing (·.adopt node)) := by
          refine .modifyNode ?_ (fun _ => .of_annotated hadopt) hadopt.specializer
          rw [members, members, hscope]
          exact .refl _
        have hset : Keeps tame n m (set (m.modifyNode existing (·.adopt node))) fun _ _ => True :=
          .of_ok rfl hwrite trivial
        exact hset.bind fun _ _ _ _ => .pure trivial
      · exact .throw_bind _ _
  · next hfree => exact (keeps_allocate_attach hr hn hk hfree ht).mono fun _ _ _ _ => trivial

theorem keeps_addType (hr : Ready tame n m) (hn : node.IsSimple)
    (ht : tame → node.entity.scopePath = "" ∧ '<' ∈ node.name.toList) :
    Keeps tame n m (addType scope node) fun _ _ => True := by
  unfold addType addTypeWith
  refine (keeps_requireContainer scope _).bind ?_
  rintro - _ - ⟨rfl, hk⟩
  refine (keeps_declarationScope hr hk fun h => (ht h).1).bind fun target m' he hk' => ?_
  exact keeps_enterType (hr.grows he) hn hk' fun h => (ht h).2

theorem keeps_addType_of_free (hr : Ready tame n m) (hn : node.IsSimple)
    (hpath : node.entity.scopePath = "") (hfree : m.type? scope node.name = none)
    (ht : tame → '<' ∈ node.name.toList) :
    Keeps tame n m (addType scope node) fun id m' =>
      id = m.next ∧ m'.EntersAs scope node.name id := by
  unfold addType addTypeWith
  refine (keeps_requireContainer scope _).bind ?_
  rintro - _ - ⟨rfl, hk⟩
  have hscope : declarationScope scope node.entity.scopePath m = .ok scope m := by
    rw [declarationScope, ModelM.bind_apply, ModelM.get_apply]
    simp [hpath]
  refine Keeps.bind (.of_ok hscope (.refl m) (Q := fun id m' => scope = id ∧ m = m') ⟨rfl, rfl⟩) ?_
  rintro _ _ - ⟨rfl, rfl⟩
  unfold enterType
  apply Keeps.get_bind
  simp only [hfree]
  exact keeps_allocate_attach hr hn hk hfree ht

theorem keeps_deleteType (hn : n ≤ id.index) (ht : tame → '<' ∈ (m.node id).name.toList) :
    Keeps tame n m (deleteType id) fun _ _ => True := by
  unfold deleteType
  by_cases h : ∃ owner, m.Member id owner
  · obtain ⟨owner, hm⟩ := h
    exact .of_ok (detach_eq hm.1 hm.2) (.released hn ht) trivial
  · obtain ⟨failure, he⟩ := detach_eq_error fun owner hm => h ⟨owner, hm⟩
    exact .of_error he (.refl m)

end Model

end ApiModel
