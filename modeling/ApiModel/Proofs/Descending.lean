import ApiModel.Proofs.Identifiers
import ApiModel.Proofs.Paths
import ApiModel.Proofs.Rebinding

/-!
Paths from the root to a type. The names along the owners of an attached type lead down the tree to
it, and so does its full name when it is looked up, as long as no scope has a name that a separator
divides: then no scope on the way takes a longer part of the path for the name of something else.
-/

namespace ApiModel

namespace Model

variable {p : Policy} {m : Model} {s id scope : TypeId} {name head tail : String}
  {parts : List String} {search : Search} {follow : Bool} {ty : TypeRef} {bound : Nat}

theorem descend?_append (hd : m.descend? s parts = some scope) (rest : List String) :
    m.descend? s (parts ++ rest) = m.descend? scope rest := by
  induction parts generalizing s with
  | nil =>
    cases hd
    rfl
  | cons part parts ih =>
    rw [List.cons_append, descend?]
    rw [descend?] at hd
    split
    · next hempty =>
      rw [if_pos hempty] at hd
      exact ih hd
    · next hne =>
      rw [if_neg hne] at hd
      obtain ⟨next, hl, hd⟩ := Option.bind_eq_some_iff.mp hd
      rw [hl, Option.bind_some]
      exact ih hd

namespace Attached

variable {names : List String}

theorem forall_name {P : String → Prop} (ha : m.Attached id names) (ht : m.IsTree)
    (h : ∀ s name id, m.type? s name = some id → P name) : ∀ name ∈ names, P name := by
  induction ha with
  | root => exact fun _ => nofun
  | member _ hm ih =>
    intro name hname
    obtain hname | hname := List.mem_append.mp hname
    · exact ih name hname
    · obtain rfl := List.mem_singleton.mp hname
      exact h _ _ _ (ht.owned hm.1 hm.2)

theorem descend?_eq (ha : m.Attached id names) (ht : m.IsTree) (hne : ∀ name ∈ names, name ≠ "") :
    m.descend? .root names = some id := by
  induction ha with
  | root => rfl
  | @member id s names above hm ih =>
    rw [descend?_append (ih fun name hname => hne name (by simp [hname])), descend?,
      if_neg (hne _ (by simp)), ht.owned hm.1 hm.2]
    rfl

theorem ne_nil (ha : m.Attached id names) (hr : id ≠ .root) : names ≠ [] := by
  cases ha with
  | root => exact absurd rfl hr
  | member => simp

theorem eq_root_or_owned (ha : m.Attached id names) : id = .root ∨ m.owner? id ≠ none := by
  cases ha with
  | root => exact .inl rfl
  | member _ hm => exact .inr (by rw [hm.1]; simp)

theorem scopePath_eq_intercalate (ha : m.Attached id names) (ht : m.IsTree) (h : m.Coherent)
    (hne : ∀ name ∈ names, name ≠ "") : m.scopePath id = "::".intercalate names := by
  rw [ha.scopePath_eq ht h]
  cases names with
  | nil => rfl
  | cons first rest =>
    rw [List.foldl_cons, Path.qualify_empty, Path.foldl_qualify (hne first (by simp))]

theorem fullName_eq (ha : m.Attached id names) (ht : m.IsTree) (h : m.Coherent) (hr : id ≠ .root)
    (hne : ∀ name ∈ names, name ≠ "") : m.fullName id = "::".intercalate names := by
  have hroot : (m.node id).isRoot = false := by
    rw [Bool.eq_false_iff, ne_eq, ht.isRoot_iff]
    exact hr
  rw [← ha.scopePath_eq_intercalate ht h hne, scopePath, hroot]
  rfl

end Attached

theorem members_of_forall {P : Scope → Prop} (h : ∀ node ∈ m.nodes.toList, ∀ a ∈ node.scope?, P a)
    (hempty : P {}) (s : TypeId) : P (m.members s) := by
  cases hs : m.scope? s with
  | none =>
    rw [members, hs]
    exact hempty
  | some a =>
    rw [members_of_scope hs]
    exact h _ (node_mem_toList (knows_of_scope hs)) a hs

theorem name_of_forall {P : String → Prop}
    (h : ∀ node ∈ m.nodes.toList, ∀ a ∈ node.scope?,
      (∀ name ∈ a.types.keys, P name) ∧ ∀ name ∈ a.typeAliases.keys, P name)
    (hkey : (m.members s).IsKey name) : P name := by
  refine members_of_forall (P := fun a => a.IsKey name → P name)
    (fun node hnode a ha hkey => ?_) (fun hkey => ?_) s hkey
  · obtain hkey | hkey := hkey
    · obtain ⟨id, hid⟩ := Option.isSome_iff_exists.mp hkey
      exact (h node hnode a ha).1 name (OrderedMap.mem_keys_of_get? hid)
    · obtain ⟨ty, hty⟩ := Option.isSome_iff_exists.mp hkey
      exact (h node hnode a ha).2 name (OrderedMap.mem_keys_of_get? hty)
  · obtain hkey | hkey := hkey <;> cases hkey

theorem binding?_of_type? (hl : m.type? s name = some id) :
    (m.members s).binding? name = some (.raw id) := by
  rw [type?_eq_get?_members] at hl
  rw [Scope.binding?, hl]
  rfl

/-- No separator divides a name under which a scope has a type. -/
def NamesUndivided (m : Model) : Prop :=
  ∀ s name, (m.members s).IsKey name → Path.splitFirst? name = none

theorem NamesUndivided.of_type? (hm : m.NamesUndivided) (hl : m.type? s name = some id) :
    Path.splitFirst? name = none := hm s name (Scope.isKey_iff.mpr ⟨_, binding?_of_type? hl⟩)

theorem NamesUndivided.binding?_eq_none (hm : m.NamesUndivided)
    (hcut : Path.splitFirst? name = some (head, tail)) : (m.members s).binding? name = none := by
  by_contra hb
  obtain ⟨ty, hty⟩ := Option.ne_none_iff_exists'.mp hb
  rw [hm s name (Scope.isKey_iff.mpr ⟨ty, hty⟩)] at hcut
  cases hcut

/-- A name that the scope does not have as a whole is sought part by part. -/
theorem findInside_of_parts {shorter : TypeId → String → Search → Bool → Option TypeRef}
    {outer : TypeId} (hc : (m.node s).isContainer = true)
    (hb : (m.members s).binding? name = none)
    (hcut : Path.splitFirst? name = some (head, tail))
    (hhead : (if head = "" then some (.raw .root) else shorter s head search follow) =
      some (.raw outer)) :
    m.findInside shorter s name search follow = shorter outer tail .local true := by
  obtain ⟨a, ha⟩ := isContainer_iff.mp hc
  rw [members_of_scope ha, Scope.binding?] at hb
  rw [findInside, ha]
  dsimp only
  rw [← Option.or_assoc, hb, Option.none_or, hcut]
  dsimp only
  rw [hhead]

theorem isContainer_of_type? (hl : m.type? s name = some id) : (m.node s).isContainer = true := by
  obtain ⟨a, ha, -⟩ := type?_eq_some_iff.mp hl
  exact isContainer_iff.mpr ⟨a, ha⟩

/-- A path down the tree leads to its end. -/
theorem findBelow_of_descend? (hm : m.NamesUndivided) (hparts : ∀ part ∈ parts, Path.IsPart part)
    (hne : parts ≠ []) (hd : m.descend? s parts = some id)
    (hb : ("::".intercalate parts).length < bound) :
    m.findBelow bound s ("::".intercalate parts) search follow = some (.raw id) := by
  have hsep : "::".length = 2 := rfl
  induction parts generalizing s search follow bound with
  | nil => exact absurd rfl hne
  | cons part parts ih =>
    obtain ⟨hpart, hrest⟩ := List.forall_mem_cons.mp hparts
    obtain ⟨bound, rfl⟩ : ∃ n, bound = n + 1 := ⟨bound - 1, by omega⟩
    rw [descend?, if_neg hpart.ne_empty] at hd
    obtain ⟨child, hl, hd⟩ := Option.bind_eq_some_iff.mp hd
    cases parts with
    | nil =>
      cases hd
      rw [String.intercalate_singleton]
      exact findBelow_of_inside (findInside_of_binding (binding?_of_type? hl))
    | cons next parts =>
      rw [String.intercalate_cons_cons] at hb ⊢
      rw [String.length_append, String.length_append] at hb
      have hcut := hpart.splitFirst? ("::".intercalate (next :: parts))
      have hfirst : m.findBelow bound s part search follow = some (.raw child) := by
        obtain ⟨bound, rfl⟩ : ∃ n, bound = n + 1 := ⟨bound - 1, by omega⟩
        exact findBelow_of_inside (findInside_of_binding (binding?_of_type? hl))
      refine findBelow_of_inside ?_
      rw [findInside_of_parts (isContainer_of_type? hl) (hm.binding?_eq_none hcut) hcut
        (by rw [if_neg hpart.ne_empty, hfirst])]
      exact ih hrest (by simp) hd (by omega)

theorem findPlain_of_descend? (hm : m.NamesUndivided) (hparts : ∀ part ∈ parts, Path.IsPart part)
    (hne : parts ≠ []) (hd : m.descend? s parts = some id) :
    m.findPlain s ("::".intercalate parts) search follow = some (.raw id) :=
  findBelow_of_descend? hm hparts hne hd (Nat.lt_succ_self _)

theorem findPlain_of_absolute (hm : m.NamesUndivided) (hc : (m.node s).isContainer = true)
    (hparts : ∀ part ∈ parts, Path.IsPart part) (hne : parts ≠ [])
    (hd : m.descend? .root parts = some id) :
    m.findPlain s ("::" ++ "::".intercalate parts) search follow = some (.raw id) := by
  have hcut := Path.splitFirst?_separator ("::".intercalate parts)
  have hlength : ("::".intercalate parts).length < ("::" ++ "::".intercalate parts).length := by
    rw [String.length_append, show "::".length = 2 from rfl]
    omega
  refine findBelow_of_inside ?_
  rw [findInside_of_parts hc (hm.binding?_eq_none hcut) hcut (if_pos rfl)]
  exact findBelow_of_descend? hm hparts hne hd hlength

namespace Attached

variable {names : List String} (ha : m.Attached id names) (ht : m.IsTree) (h : m.Coherent)
  (hr : id ≠ .root)
include ha ht h hr

theorem isPath (hparts : ∀ name ∈ names, Path.IsPart name) : Path.IsPath (m.fullName id) := by
  rw [ha.fullName_eq ht h hr fun name hname => (hparts name hname).ne_empty]
  exact .intercalate (ha.ne_nil hr) fun name hname => (hparts name hname).toIsPath

theorem isPlainQuery (hparts : ∀ name ∈ names, Name.IsPlainQuery name) :
    Name.IsPlainQuery (m.fullName id) := by
  rw [ha.fullName_eq ht h hr fun name hname => (hparts name hname).ne_empty]
  exact .intercalate (ha.ne_nil hr) hparts

theorem findPlain_fullName (hm : m.NamesUndivided) (hparts : ∀ name ∈ names, Path.IsPart name) :
    m.findPlain .root (m.fullName id) search follow = some (.raw id) := by
  have hne : ∀ name ∈ names, name ≠ "" := fun name hname => (hparts name hname).ne_empty
  rw [ha.fullName_eq ht h hr hne]
  exact findPlain_of_descend? hm hparts (ha.ne_nil hr) (ha.descend?_eq ht hne)

theorem findPlain_absolute (hm : m.NamesUndivided) (hparts : ∀ name ∈ names, Path.IsPart name)
    (hc : (m.node s).isContainer = true) :
    m.findPlain s ("::" ++ m.fullName id) search follow = some (.raw id) := by
  have hne : ∀ name ∈ names, name ≠ "" := fun name hname => (hparts name hname).ne_empty
  rw [ha.fullName_eq ht h hr hne]
  exact findPlain_of_absolute hm hc hparts (ha.ne_nil hr) (ha.descend?_eq ht hne)

end Attached

end Model

end ApiModel
