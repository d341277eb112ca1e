import ApiModel.Proofs.AbsoluteNames
import ApiModel.Proofs.Accessors

/-!
The order of inherited attributes. Each class adds the attributes of its parents, which are free of
duplicates already, to its own, and makes the ones that it adds its own. All in all this is the list
of the attributes of the class and its ancestors, from parent to parent, of which the first under
each name stays.
-/

namespace ApiModel

namespace Attribute

variable {a b : Attribute} {attributes found : List Attribute}

structure OwnedAs (id : TypeId) (a b : Attribute) : Prop where
  name : b.name = a.name
  type : b.type = a.type
  flags : b.entity.flags = a.entity.flags
  owner : b.entity.owner = some id

theorem names_eq {id : TypeId} {attributes' : List Attribute}
    (h : List.Forall₂ (OwnedAs id) attributes attributes') :
    attributes'.map name = attributes.map name := by
  induction h with
  | nil => rfl
  | cons ha _ ih => rw [List.map_cons, List.map_cons, ha.name, ih]

/-- The attributes without those that have the name of one before them. -/
def firstNamed (attributes : List Attribute) : List Attribute :=
  attributes.eraseDupsBy fun a b => a.name == b.name

theorem firstNamed_cons (a : Attribute) (attributes : List Attribute) :
    firstNamed (a :: attributes) =
      a :: firstNamed (attributes.filter fun b => b.name ≠ a.name) := by
  rw [firstNamed, List.eraseDupsBy_cons]
  simp only [beq_eq_false_iff_ne]
  rfl

def addNamed (found : List Attribute) (a : Attribute) : List Attribute :=
  if found.any fun b => b.name = a.name then found else found ++ [a]

theorem addNamed_of_mem (h : a.name ∈ found.map name) : addNamed found a = found := by
  obtain ⟨b, hb, hname⟩ := List.mem_map.mp h
  exact if_pos (List.any_eq_true.mpr ⟨b, hb, decide_eq_true hname⟩)

theorem addNamed_of_not_mem (h : a.name ∉ found.map name) : addNamed found a = found ++ [a] := by
  refine if_neg fun hany => h ?_
  obtain ⟨b, hb, hname⟩ := List.any_eq_true.mp hany
  exact List.mem_map.mpr ⟨b, hb, of_decide_eq_true hname⟩

theorem mem_names_addNamed {text : String} :
    text ∈ (addNamed found a).map name ↔ text ∈ found.map name ∨ text = a.name := by
  by_cases h : a.name ∈ found.map name
  · rw [addNamed_of_mem h, iff_self_or]
    rintro rfl
    exact h
  · rw [addNamed_of_not_mem h, List.map_append, List.mem_append, List.map_singleton,
      List.mem_singleton]

theorem mem_names_foldl_addNamed {text : String} :
    text ∈ (attributes.foldl addNamed found).map name ↔
      text ∈ found.map name ∨ text ∈ attributes.map name := by
  induction attributes generalizing found with
  | nil => simp
  | cons a attributes ih =>
    rw [List.foldl_cons, ih, mem_names_addNamed, List.map_cons, List.mem_cons, or_assoc]

theorem nodup_foldl_addNamed (h : (found.map name).Nodup) :
    ((attributes.foldl addNamed found).map name).Nodup := by
  induction attributes generalizing found with
  | nil => exact h
  | cons a attributes ih =>
    refine ih ?_
    by_cases hmem : a.name ∈ found.map name
    · rwa [addNamed_of_mem hmem]
    · rw [addNamed_of_not_mem hmem, List.map_append, List.map_singleton, ← List.concat_eq_append]
      exact h.concat hmem

theorem foldl_addNamed_of_nodup (h : ((found ++ attributes).map name).Nodup) :
    attributes.foldl addNamed found = found ++ attributes := by
  induction attributes generalizing found with
  | nil => simp
  | cons a attributes ih =>
    have hnew : a.name ∉ found.map name := fun hmem => by
      rw [List.map_append, List.nodup_append] at h
      exact h.2.2 _ hmem _ (by simp) rfl
    rw [List.foldl_cons, addNamed_of_not_mem hnew, ih (by simpa using h), List.append_assoc]
    rfl

/-- One by one, the attributes are added that are the first under their names. -/
theorem foldl_addNamed : attributes.foldl addNamed found =
    found ++ firstNamed (attributes.filter fun a => a.name ∉ found.map name) := by
  induction attributes generalizing found with
  | nil => simp [firstNamed]
  | cons a attributes ih =>
    rw [List.foldl_cons, ih]
    by_cases hmem : a.name ∈ found.map name
    · rw [addNamed_of_mem hmem, List.filter_cons_of_neg (by simpa using hmem)]
    · rw [List.filter_cons_of_pos (by simpa using hmem), firstNamed_cons, List.filter_filter,
        addNamed_of_not_mem hmem, List.append_assoc, List.singleton_append]
      congr 3
      refine List.filter_congr fun b _ => ?_
      simp [and_comm]

theorem firstNamed_eq : firstNamed attributes = attributes.foldl addNamed [] := by
  simp [foldl_addNamed]

theorem foldl_foldl_addNamed (collected : List Attribute) :
    (attributes.foldl addNamed collected).foldl addNamed found =
      attributes.foldl addNamed (collected.foldl addNamed found) := by
  induction attributes generalizing collected with
  | nil => rfl
  | cons a attributes ih =>
    rw [List.foldl_cons, List.foldl_cons, ih]
    congr 1
    by_cases hmem : a.name ∈ collected.map name
    · rw [addNamed_of_mem hmem, addNamed_of_mem (mem_names_foldl_addNamed.mpr (.inr hmem))]
    · rw [addNamed_of_not_mem hmem, List.foldl_append, List.foldl_cons, List.foldl_nil]

theorem foldl_firstNamed (attributes found : List Attribute) :
    (firstNamed attributes).foldl addNamed found = attributes.foldl addNamed found := by
  rw [firstNamed_eq, foldl_foldl_addNamed, List.foldl_nil]

end Attribute

namespace Model

open Attribute

variable {p : Policy} {m : Model} {id parent : TypeId}

def lineTo (m : Model) : (levels : Nat) → TypeId → List TypeId
  | 0, _ => []
  | levels + 1, id => id :: (m.parents id).flatMap (lineTo m levels)

/-- A class, then its first parent with all that this one derives from, and so on. -/
def line (m : Model) (id : TypeId) : List TypeId := m.lineTo (m.size + 1) id

theorem Lineage.line_unique (h : Lineage p m) {f : TypeId → List TypeId} :
    (∀ id, f id = id :: (m.parents id).flatMap f) ↔ f = m.line := by
  have hasks : m.AsksParents fun f id => id :: (m.parents id).flatMap f := fun _ _ id hfg =>
    congrArg (id :: ·) (List.flatMap_congr hfg)
  have hlevel : ∀ levels id,
      m.lineTo (levels + 1) id = id :: (m.parents id).flatMap (m.lineTo levels) := fun _ _ => rfl
  exact h.solves_iff hasks hlevel

/-- The attributes of a class and its ancestors, each with those that it declares itself. -/
def lineAttributes (m : Model) (id : TypeId) : List Attribute :=
  (m.line id).flatMap fun ancestor => (m.members ancestor).attributes.values

theorem Lineage.lineAttributes_eq (h : Lineage p m) (id : TypeId) :
    m.lineAttributes id =
      (m.members id).attributes.values ++ (m.parents id).flatMap m.lineAttributes := by
  rw [lineAttributes, h.line_unique.mpr rfl id, List.flatMap_cons, List.flatMap_assoc]
  rfl

section

variable (h : Reachable p m)
include h

theorem Reachable.nodup_ownAttributes (id : TypeId) :
    ((m.members id).attributes.values.map name).Nodup := by
  cases hs : m.scope? id with
  | none =>
    rw [members, hs]
    exact List.nodup_nil
  | some a =>
    rw [members_of_scope hs, (h.membersNamed id a hs).attributes.map_values]
    exact a.attributes.nodup

theorem Reachable.ownAttributes_ownedAs (id : TypeId) :
    List.Forall₂ (OwnedAs id) (m.members id).attributes.values
      (m.members id).attributes.values := by
  refine List.forall₂_same.mpr fun a ha => ⟨rfl, rfl, rfl, ?_⟩
  cases hs : m.scope? id with
  | none =>
    rw [members, hs] at ha
    cases ha
  | some members =>
    rw [members_of_scope hs] at ha
    exact h.coherent.owned id members hs _ (Scope.mem_entities.mpr (.inr (.inr ⟨a, ha, rfl⟩)))

end

/-- A class adds the attribute of a parent where the first under each name would be added. -/
theorem ownedAs_inheritAttribute {found found' : List Attribute} {a a' : Attribute}
    (hfound : List.Forall₂ (OwnedAs id) found found') (ha : OwnedAs parent a a') :
    List.Forall₂ (OwnedAs id) (addNamed found a) (m.inheritAttribute id found' a') := by
  have hany : (found'.any fun b => b.name = a'.name) = found.any fun b => b.name = a.name := by
    induction hfound with
    | nil => rfl
    | cons hb _ ih => rw [List.any_cons, List.any_cons, ih, hb.name, ha.name]
  rw [addNamed, inheritAttribute, hany]
  split
  · exact hfound
  · exact List.rel_append hfound (.cons ⟨ha.name, ha.type, ha.flags, rfl⟩ .nil)

theorem ownedAs_foldl_inheritAttribute {found found' attributes attributes' : List Attribute}
    (hfound : List.Forall₂ (OwnedAs id) found found')
    (h : List.Forall₂ (OwnedAs parent) attributes attributes') :
    List.Forall₂ (OwnedAs id) (attributes.foldl addNamed found)
      (attributes'.foldl (m.inheritAttribute id) found') := by
  induction h generalizing found found' with
  | nil => exact hfound
  | cons ha _ ih => exact ih (ownedAs_inheritAttribute hfound ha)

theorem ownedAs_foldl_parents {parents : List TypeId} {found found' : List Attribute}
    (hfound : List.Forall₂ (OwnedAs id) found found')
    (h : ∀ parent ∈ parents, List.Forall₂ (OwnedAs parent) (firstNamed (m.lineAttributes parent))
      (m.attributes parent)) :
    List.Forall₂ (OwnedAs id) ((parents.flatMap m.lineAttributes).foldl addNamed found)
      (parents.foldl (fun found parent => (m.attributes parent).foldl (m.inheritAttribute id) found)
        found') := by
  induction parents generalizing found found' with
  | nil => exact hfound
  | cons parent parents ih =>
    obtain ⟨hparent, hparents⟩ := List.forall_mem_cons.mp h
    rw [List.flatMap_cons, List.foldl_append, ← foldl_firstNamed (m.lineAttributes parent)]
    exact ih (ownedAs_foldl_inheritAttribute hfound hparent) hparents

theorem Reachable.attributes_ownedAs (h : Reachable p m) (id : TypeId) :
    List.Forall₂ (OwnedAs id) (firstNamed (m.lineAttributes id)) (m.attributes id) := by
  induction id using h.lineage.wellFounded.induction with
  | _ id ih =>
    have hown : (m.members id).attributes.values.foldl addNamed [] =
        (m.members id).attributes.values := foldl_addNamed_of_nodup (h.nodup_ownAttributes id)
    rw [firstNamed_eq, h.lineage.lineAttributes_eq, List.foldl_append, hown,
      h.lineage.attributes_eq]
    exact ownedAs_foldl_parents (h.ownAttributes_ownedAs id) ih

theorem Reachable.nodup_attributes (h : Reachable p m) (id : TypeId) :
    ((m.attributes id).map name).Nodup := by
  rw [names_eq (h.attributes_ownedAs id), firstNamed_eq]
  exact nodup_foldl_addNamed List.nodup_nil

/-- The attributes of a struct or class have different names. They are, in order, the first under
each name among those of the class, of its first parent with all that this one derives from, and so
on, with the class as their owner. -/
theorem Reachable.attributes_flattened (h : Reachable p m) :
    (∀ f : TypeId → List TypeId, (∀ id, f id = id :: (m.parents id).flatMap f) ↔ f = m.line) ∧
    ∀ id, ((m.attributes id).map name).Nodup ∧
      List.Forall₂ (OwnedAs id)
        (firstNamed ((m.line id).flatMap fun ancestor => (m.members ancestor).attributes.values))
        (m.attributes id) :=
  ⟨fun _ => h.lineage.line_unique, fun id => ⟨h.nodup_attributes id, h.attributes_ownedAs id⟩⟩

def diamond : List Action :=
  [.addType .root (declaration .classType "" "A") true,
   .addType .root (declaration .classType "" "B") true,
   .addType .root (declaration .classType "" "C") true,
   .addType .root (declaration .classType "" "D") true,
   .addAttribute ⟨1⟩ ⟨{ name := "x" }, .raw ⟨1⟩⟩, .addAttribute ⟨1⟩ ⟨{ name := "y" }, .raw ⟨1⟩⟩,
   .addAttribute ⟨2⟩ ⟨{ name := "y" }, .raw ⟨2⟩⟩, .addAttribute ⟨3⟩ ⟨{ name := "x" }, .raw ⟨3⟩⟩,
   .addParent ⟨2⟩ ⟨1⟩, .addParent ⟨3⟩ ⟨1⟩, .addParent ⟨4⟩ ⟨2⟩, .addParent ⟨4⟩ ⟨3⟩]

/-- The class `D` has the `y` of `B` and, from before that of `C`, the `x` of `A`. -/
theorem attributes_flattened_of_diamond : ∃ m x y, Reachable .free m ∧
    m.line ⟨4⟩ = [⟨4⟩, ⟨2⟩, ⟨1⟩, ⟨3⟩, ⟨1⟩] ∧
    (m.members ⟨1⟩).attributes.get? "x" = some x ∧ (m.members ⟨2⟩).attributes.get? "y" = some y ∧
    List.Forall₂ (OwnedAs ⟨4⟩) [y, x] (m.attributes ⟨4⟩) := by
  have h : Reachable .free (bare.afterAll diamond) := by
    refine reachable_bare.afterAll ?_
    simp only [diamond, List.forall_mem_cons, List.not_mem_nil, false_imp_iff, implies_true,
      and_true]
    exact ⟨fun _ => isFresh_declaration nofun nofun, fun _ => isFresh_declaration nofun nofun,
      fun _ => isFresh_declaration nofun nofun, fun _ => isFresh_declaration nofun nofun,
      fun _ => trivial, fun _ => trivial, fun _ => trivial, fun _ => trivial, fun _ => trivial,
      fun _ => trivial, fun _ => trivial, fun _ => trivial⟩
  let x : Attribute :=
    ⟨{ name := "x", scopePath := "A", owner := some ⟨1⟩, version := 2 }, .raw ⟨1⟩⟩
  let y : Attribute :=
    ⟨{ name := "y", scopePath := "B", owner := some ⟨2⟩, version := 2 }, .raw ⟨2⟩⟩
  have hfirst : firstNamed ((bare.afterAll diamond).lineAttributes ⟨4⟩) = [y, x] := by
    decide +kernel
  obtain ⟨-, hall⟩ := h.attributes_flattened
  refine ⟨_, x, y, h, by decide +kernel, by decide +kernel, by decide +kernel, ?_⟩
  rw [← hfirst]
  exact (hall ⟨4⟩).2

end Model

end ApiModel
