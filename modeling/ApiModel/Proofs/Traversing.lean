import ApiModel.Model.Traversal
import ApiModel.Proofs.Namespaces
import Mathlib.Data.List.Flatten

/-!
Walks over the tree of types. A walk visits the types below a scope that it shows, less those behind
a type that it hides, each of them once, in the order of the tree and of the members of each scope.
-/

namespace ApiModel

open Relation
open scoped List

namespace Traversal

variable {t t' : Traversal}

/-- The walk visits the type where it finds it: no template, and none of what is left out. -/
def Shows (t : Traversal) (m : Model) (id : TypeId) : Prop :=
  (m.node id).isTemplate = false ∧ t.admits (m.node id).entity = true

instance (t : Traversal) (m : Model) (id : TypeId) : Decidable (t.Shows m id) := by
  unfold Shows; infer_instance

/-- The type lies below the scope, and the walk shows it and whatever lies between the two. -/
structure Visits (t : Traversal) (m : Model) (scope id : TypeId) : Prop where
  below : if t.recursive then TransGen m.Owned id scope else m.Owned id scope
  shown : ∀ x, m.Inside id x → TransGen m.Owned x scope → t.Shows m x

structure Within (t t' : Traversal) : Prop where
  recursive : t.recursive = true → t'.recursive = true
  ignored : t.includeIgnored = true → t'.includeIgnored = true
  foreign : t.includeForeign = true → t'.includeForeign = true

theorem Within.admits (h : t.Within t') {e : Entity} (he : t.admits e = true) :
    t'.admits e = true := by
  simp only [Traversal.admits, Bool.and_eq_true, Bool.or_eq_true] at he ⊢
  exact ⟨he.1.imp_left h.ignored, he.2.imp_left h.foreign⟩

/-- The walk goes from the scope to the type, which the scope lists. -/
def Enters (t : Traversal) (m : Model) (id scope : TypeId) : Prop :=
  m.Member id scope ∧ t.Shows m id

end Traversal

namespace Model

variable {p : Policy} {m : Model} {t t' : Traversal} {scope s id a b x : TypeId}

/-- The type belongs to one that holds no members, so that no scope lists it. -/
def Stranded (m : Model) (id : TypeId) : Prop :=
  ∃ s, m.Owned id s ∧ (m.node s).isContainer = false

theorem Inside.comparable (ha : m.Inside x a) (hb : m.Inside x b) :
    m.Inside a b ∨ m.Inside b a :=
  ReflTransGen.total_of_right_unique (fun _ _ _ => Owned.unique) ha hb

namespace IsTree

theorem eq_of_inside (h : m.IsTree) (ha : m.Owned a s) (hb : m.Owned b s) (hxa : m.Inside x a)
    (hxb : m.Inside x b) : a = b := by
  have apart : ∀ {a b}, m.Owned a s → m.Owned b s → m.Inside a b → a = b := by
    intro a b ha hb hab
    obtain rfl | ⟨c, hac, hcb⟩ := hab.cases_head
    · rfl
    · obtain rfl := hac.unique ha
      exact absurd hcb (h.not_inside_of_owned hb)
  obtain hab | hba := hxa.comparable hxb
  · exact apart ha hb hab
  · exact (apart hb ha hba).symm

theorem nodup_values (h : m.IsTree) {members : Scope} (hs : m.scope? s = some members) :
    members.types.values.Nodup := by
  -- entries of one type have one name, and no name has two entries
  refine List.Nodup.map_on ?_ (List.Nodup.of_map _ members.types.nodup)
  rintro ⟨name, id⟩ he ⟨name', id'⟩ he' rfl
  have hname := h.listed_unique ((type?_eq_some_iff_mem hs).mpr he)
    ((type?_eq_some_iff_mem hs).mpr he')
  rw [hname.2]

theorem mem_ownedTypes (h : m.IsTree) :
    id ∈ m.ownedTypes scope ↔ m.Member id scope ∧ (m.node id).isTemplate = false := by
  unfold ownedTypes
  cases hs : m.scope? scope with
  | none =>
    have hc : (m.node scope).isContainer = false := by
      rw [TypeNode.isContainer]
      exact congrArg Option.isSome hs
    simp [Member, hc]
  | some members =>
    have hc : (m.node scope).isContainer = true := isContainer_iff.mpr ⟨members, hs⟩
    simp only [List.mem_filter, Bool.and_eq_true, decide_eq_true_eq, Bool.not_eq_true', Member,
      Owned, hc, and_true]
    exact ⟨fun hm => hm.2, fun hm => ⟨h.mem_values_of_member ⟨hm.1, hc⟩ hs, hm⟩⟩

/-- Where a walk goes to is what it shows, with no stranded type on the way. -/
theorem transGen_enters_iff (h : m.IsTree) : TransGen (t.Enters m) id scope ↔
    TransGen m.Owned id scope ∧
      ∀ x, m.Inside id x → TransGen m.Owned x scope → t.Shows m x ∧ ¬ m.Stranded x := by
  have enters_iff : ∀ {x s}, m.Owned x s →
      (t.Enters m x s ↔ t.Shows m x ∧ ¬ m.Stranded x) := by
    intro x s hx
    have hstranded : m.Stranded x ↔ (m.node s).isContainer = false :=
      ⟨fun ⟨s', hs', hc⟩ => hs'.unique hx ▸ hc, fun hc => ⟨s, hx, hc⟩⟩
    rw [hstranded, Bool.not_eq_false]
    exact ⟨fun he => ⟨he.2, he.1.2⟩, fun he => ⟨⟨hx, he.2⟩, he.1⟩⟩
  constructor
  · intro hw
    refine ⟨TransGen.mono (fun _ _ he => he.1.1) _ _ hw, ?_⟩
    induction hw using TransGen.head_induction_on with
    | @single id he =>
      intro x hix hx
      obtain rfl | ⟨c, hc, hcx⟩ := hix.cases_head
      · exact (enters_iff he.1.1).mp he
      · obtain rfl := hc.unique he.1.1
        exact absurd (TransGen.trans_left hx hcx) (h.acyclic x)
    | @head id c he _ ih =>
      intro x hix hx
      obtain rfl | ⟨c', hc, hcx⟩ := hix.cases_head
      · exact (enters_iff he.1.1).mp he
      · obtain rfl := hc.unique he.1.1
        exact ih x hcx hx
  · rintro ⟨hw, hall⟩
    induction hw using TransGen.head_induction_on with
    | @single id ho => exact .single ((enters_iff ho).mpr (hall id .refl (.single ho)))
    | @head id c ho hw ih =>
      have he := (enters_iff ho).mpr (hall id .refl (.head ho hw))
      exact .head he (ih fun x hcx => hall x (.head ho hcx))

end IsTree

theorem IsTree.mem_shown (h : m.IsTree) :
    id ∈ (m.ownedTypes scope).filter (fun id => t.admits (m.node id).entity) ↔
      t.Enters m id scope := by
  rw [List.mem_filter, h.mem_ownedTypes, Traversal.Enters, Traversal.Shows, and_assoc]

theorem IsTree.mem_typesTo_succ (h : m.IsTree) {levels : Nat} :
    id ∈ m.typesTo t (levels + 1) scope ↔ ∃ c, t.Enters m c scope ∧
      (id = c ∨ t.recursive = true ∧ id ∈ m.typesTo t levels c) := by
  rw [typesTo, List.mem_flatMap]
  refine exists_congr fun c => and_congr h.mem_shown ?_
  rw [List.mem_cons]
  cases t.recursive <;> simp

theorem IsTree.transGen_of_mem_typesTo (h : m.IsTree) {levels : Nat}
    (hm : id ∈ m.typesTo t levels scope) : TransGen (t.Enters m) id scope := by
  induction levels generalizing scope with
  | zero => simp [typesTo] at hm
  | succ levels ih =>
    obtain ⟨c, hc, rfl | ⟨-, hm⟩⟩ := h.mem_typesTo_succ.mp hm
    · exact .single hc
    · exact (ih hm).tail hc

/-- A walk that goes as far down as the tree does lists all that it leads to. -/
theorem IsTree.mem_typesTo_iff (h : m.IsTree) {height : TypeId → Nat}
    (hr : IsRank (Function.swap m.Owned) m.size height) {levels : Nat}
    (hl : height scope < levels) : id ∈ m.typesTo t levels scope ↔
      if t.recursive then TransGen (t.Enters m) id scope else t.Enters m id scope := by
  induction levels generalizing scope with
  | zero => omega
  | succ levels ih =>
    rw [h.mem_typesTo_succ]
    cases hrec : t.recursive with
    | false => simp
    | true =>
      have hmem : ∀ c, t.Enters m c scope →
          (id ∈ m.typesTo t levels c ↔ TransGen (t.Enters m) id c) := fun c hc => by
        have hlt : height c < height scope := hr.lt hc.1.1
        rw [ih (by omega), hrec, if_pos rfl]
      rw [if_pos rfl, TransGen.tail'_iff]
      refine exists_congr fun c => ?_
      rw [reflTransGen_iff_eq_or_transGen, and_comm, eq_comm]
      refine and_congr_left fun hc => or_congr Iff.rfl ?_
      simpa using hmem c hc

theorem IsTree.enters_iff_of_owned (h : m.IsTree) (ho : m.Owned id scope) :
    t.Enters m id scope ↔ TransGen (t.Enters m) id scope := by
  refine ⟨.single, fun hw => ?_⟩
  obtain ⟨c, hc, hw⟩ := TransGen.head'_iff.mp hw
  obtain rfl | hw := reflTransGen_iff_eq_or_transGen.mp hw
  · exact hc
  · obtain rfl := hc.1.1.unique ho
    exact absurd (TransGen.mono (fun _ _ he => he.1.1) _ _ hw) (h.acyclic _)

theorem IsTree.mem_types_iff (h : m.IsTree) : id ∈ m.types scope t ↔
    (if t.recursive then TransGen m.Owned id scope else m.Owned id scope) ∧
      ∀ x, m.Inside id x → TransGen m.Owned x scope → t.Shows m x ∧ ¬ m.Stranded x := by
  obtain ⟨height, hr⟩ := h.exists_height
  rw [types, h.mem_typesTo_iff hr (Nat.lt_succ_of_le (hr.le scope))]
  cases t.recursive with
  | true => exact h.transGen_enters_iff
  | false =>
    constructor
    · intro he
      exact ⟨he.1.1, (h.transGen_enters_iff.mp (.single he)).2⟩
    · rintro ⟨ho, hall⟩
      exact (h.enters_iff_of_owned ho).mpr (h.transGen_enters_iff.mpr ⟨.single ho, hall⟩)

/-- In a walk the first type may come before the second one. -/
structure Precedes (m : Model) (first later : TypeId) : Prop where
  /-- No type comes before a scope that it lies in. -/
  not_inside : ¬ m.Inside first later
  /-- Members of one scope come in the order of its types. -/
  siblings : ∀ s members, m.Owned first s → m.Owned later s → m.scope? s = some members →
    [first, later] <+ members.types.values

theorem Precedes.ne (h : m.Precedes a b) : a ≠ b := fun he => h.not_inside (he ▸ .refl)

/-- Members of a scope are in the order of its types. -/
theorem IsTree.pairwise_ownedTypes (h : m.IsTree) :
    (m.ownedTypes scope).Pairwise fun a b => a ≠ b ∧
      ∀ members, m.scope? scope = some members → [a, b] <+ members.types.values := by
  unfold ownedTypes
  cases hs : m.scope? scope with
  | none => exact .nil
  | some members =>
    refine List.pairwise_iff_forall_sublist.mpr fun {a b} hab => ?_
    have hlisted := hab.trans List.filter_sublist
    refine ⟨?_, fun members' he => Option.some.inj he ▸ hlisted⟩
    exact List.pairwise_iff_forall_sublist.mp (h.nodup_values hs) hlisted

/-- What lies below a member comes before what lies below a later member. -/
theorem IsTree.precedes_of_siblings (h : m.IsTree) {x y : TypeId} (ha : m.Owned a scope)
    (hb : m.Owned b scope) (hne : a ≠ b)
    (hab : ∀ members, m.scope? scope = some members → [a, b] <+ members.types.values)
    (hx : m.Inside x a) (hy : m.Inside y b) : m.Precedes x y where
  not_inside hxy := hne (h.eq_of_inside ha hb hx (hxy.trans hy))
  siblings s members hxs hys hs := by
    obtain rfl | ⟨c, hc, hca⟩ := hx.cases_head
    · obtain rfl := hxs.unique ha
      obtain rfl | ⟨c, hc, hcb⟩ := hy.cases_head
      · exact hab members hs
      · obtain rfl := hc.unique hys
        exact absurd hcb (h.not_inside_of_owned hb)
    · obtain rfl := hc.unique hxs
      obtain rfl | ⟨c', hc', hcb⟩ := hy.cases_head
      · obtain rfl := hys.unique hb
        exact absurd hca (h.not_inside_of_owned ha)
      · obtain rfl := hc'.unique hys
        exact absurd (h.eq_of_inside ha hb hca hcb) hne

theorem IsTree.pairwise_typesTo (h : m.IsTree) (levels : Nat) :
    (m.typesTo t levels scope).Pairwise m.Precedes := by
  induction levels generalizing scope with
  | zero => exact .nil
  | succ levels ih =>
    -- what is listed for a member lies inside of it
    have inside : ∀ {c x}, x ∈ c :: (if t.recursive then m.typesTo t levels c else []) →
        m.Inside x c := by
      intro c x hx
      obtain rfl | hx := List.mem_cons.mp hx
      · exact .refl
      · split at hx
        · exact (h.transGen_enters_iff.mp (h.transGen_of_mem_typesTo hx)).1.to_reflTransGen
        · simp at hx
    rw [typesTo, List.pairwise_flatMap]
    constructor
    · intro c hc
      refine List.pairwise_cons.mpr ⟨fun x hx => ?_, ?_⟩
      · split at hx
        · have hxc := (h.transGen_enters_iff.mp (h.transGen_of_mem_typesTo hx)).1
          refine ⟨fun hcx => h.acyclic x (hxc.trans_left hcx), fun s _ hcs hxs _ => ?_⟩
          obtain ⟨c', hc', hcc⟩ := TransGen.head'_iff.mp hxc
          obtain rfl := hc'.unique hxs
          exact absurd hcc (h.not_inside_of_owned hcs)
        · simp at hx
      · split
        · exact ih
        · exact .nil
    · have howned : ∀ {c}, c ∈ (m.ownedTypes scope).filter
          (fun id => t.admits (m.node id).entity) → m.Owned c scope := fun hc =>
        (h.mem_shown.mp hc).1.1
      refine (h.pairwise_ownedTypes.sublist List.filter_sublist).imp_of_mem ?_
      intro a b ha hb hab x hx y hy
      exact h.precedes_of_siblings (howned ha) (howned hb) hab.1 hab.2 (inside hx) (inside hy)

/-- A walk that visits more lists what it lists in the same order. -/
theorem typesTo_sublist (m : Model) (h : t.Within t') (levels : Nat) (scope : TypeId) :
    m.typesTo t levels scope <+ m.typesTo t' levels scope := by
  induction levels generalizing scope with
  | zero => exact List.Sublist.refl _
  | succ levels ih =>
    rw [typesTo, typesTo]
    refine List.Sublist.trans (List.Sublist.flatMap_right _ fun c _ => ?_)
      (List.Sublist.flatMap (List.monotone_filter_right _ fun c => h.admits) _)
    refine .cons_cons c ?_
    cases hrec : t.recursive with
    | false => simp
    | true => simpa [h.recursive hrec] using ih c

/-- A walk lists what it is to visit, less what lies behind a stranded type, each type once; a scope
comes before all that lies in it, members of one scope in its order, and a walk that visits more
lists the same types in the same order. -/
theorem Reachable.types_visited (h : Reachable p m) (t : Traversal) (scope : TypeId) :
    (m.types scope t).Nodup ∧
    (∀ id, id ∈ m.types scope t ↔ t.Visits m scope id ∧
      ¬ ∃ x, m.Inside id x ∧ TransGen m.Owned x scope ∧ m.Stranded x) ∧
    ((m.types scope t).Pairwise fun first later => ¬ TransGen m.Owned first later) ∧
    ((m.types scope t).Pairwise fun first later => ∀ s members, m.Owned first s →
      m.Owned later s → m.scope? s = some members → [first, later] <+ members.types.values) ∧
    ∀ t', t.Within t' → m.types scope t <+ m.types scope t' := by
  have ht := h.sound.isTree
  have hordered : (m.types scope t).Pairwise m.Precedes := ht.pairwise_typesTo _
  refine ⟨List.nodup_iff_pairwise_ne.mpr (hordered.imp Precedes.ne),
    fun id => ?_, hordered.imp fun hp hw => hp.not_inside hw.to_reflTransGen,
    hordered.imp Precedes.siblings, fun t' ht' => typesTo_sublist m ht' _ _⟩
  rw [ht.mem_types_iff]
  constructor
  · rintro ⟨hb, hall⟩
    exact ⟨⟨hb, fun x hix hx => (hall x hix hx).1⟩, fun ⟨x, hix, hx, hs⟩ => (hall x hix hx).2 hs⟩
  · rintro ⟨⟨hb, hall⟩, hs⟩
    exact ⟨hb, fun x hix hx => ⟨hall x hix hx, fun hx' => hs ⟨x, hix, hx, hx'⟩⟩⟩

/-- The class `A` in the namespace `n` is visited, and its ignored neighbour `B` is only when
ignored types are. -/
theorem types_visited_of_class : ∃ m, Reachable .free m ∧
    Traversal.Visits {} m .root ⟨2⟩ ∧ ¬ Traversal.Visits {} m .root ⟨3⟩ ∧
    Traversal.Visits .everything m .root ⟨3⟩ := by
  let actions : List Action :=
    [.addType .root (declaration .classType "n" "A") true,
      .addType .root (declaration .classType "n" "B") true, .annotate ⟨3⟩ (.ignored true)]
  have h : Reachable .free (bare.afterAll actions) := by
    refine reachable_bare.afterAll fun action ha m => ?_
    simp only [actions, List.mem_cons, List.not_mem_nil, or_false] at ha
    obtain rfl | rfl | rfl := ha
    · exact isFresh_declaration nofun nofun
    · exact isFresh_declaration nofun nofun
    · trivial
  have hlisted : (bare.afterAll actions).types .root {} = [⟨1⟩, ⟨2⟩] ∧
      (bare.afterAll actions).types .root .everything = [⟨1⟩, ⟨2⟩, ⟨3⟩] := by decide +kernel
  have hdefault := (h.types_visited {} .root).2.1
  have hall := (h.types_visited .everything .root).2.1
  rw [hlisted.1] at hdefault
  rw [hlisted.2] at hall
  have hA := (hdefault ⟨2⟩).mp (by decide)
  refine ⟨_, h, hA.1, fun hB => ?_, ((hall ⟨3⟩).mp (by decide)).1⟩
  have hfree := ((hall ⟨3⟩).mp (by decide)).2
  exact absurd ((hdefault ⟨3⟩).mpr ⟨hB, hfree⟩) (by decide)

/-- The namespace `x` that was refused inside of `int` belongs to `int`, below the root, but no walk
visits it. -/
theorem types_miss_stranded : ∃ m, Reachable .free m ∧
    Traversal.everything.Visits m .root ⟨2⟩ ∧ ⟨2⟩ ∉ m.types .root .everything := by
  let action : Action := .addNamespace ⟨1⟩ "x"
  have h : Reachable .free (action.run.after bareWithInt) :=
    reachable_bareWithInt.step action ⟨by decide +kernel, nofun⟩
  have hx : (action.run.after bareWithInt).owner? ⟨2⟩ = some ⟨1⟩ := by decide +kernel
  have hint : (action.run.after bareWithInt).owner? ⟨1⟩ = some .root := by decide +kernel
  refine ⟨_, h, ⟨.head hx (.single hint), fun x hix hxr => ?_⟩, by decide +kernel⟩
  obtain rfl | ⟨c, hc, hcx⟩ := hix.cases_head
  · decide +kernel
  obtain rfl := hc.unique hx
  obtain rfl | ⟨c, hc, hcx⟩ := hcx.cases_head
  · decide +kernel
  obtain rfl := hc.unique hint
  exact absurd (hxr.trans_left hcx) (h.sound.isTree.acyclic _)

end Model

end ApiModel
