import ApiModel.Model.Listing
import ApiModel.Proofs.Traversing

/-!
Listings and walks. A listing consists of the lines of the scope and of all types that a walk over
everything visits, in the order of the walk, each type as far to the right as it lies below the
scope.
-/

namespace ApiModel.Model

open Relation

variable {p : Policy} {m : Model} {scope id : TypeId} {depth : Nat}

/-- So many owners lead from the type up to the scope. -/
inductive LiesBelow (m : Model) (scope : TypeId) : (depth : Nat) → TypeId → Prop
  | scope : LiesBelow m scope 0 scope
  | member {depth : Nat} {id owner : TypeId} (above : LiesBelow m scope depth owner)
      (owned : m.Owned id owner) : LiesBelow m scope (depth + 1) id

theorem LiesBelow.inside (h : m.LiesBelow scope depth id) : m.Inside id scope := by
  induction h with
  | scope => exact .refl
  | member _ owned ih => exact .head owned ih

theorem Inside.exists_liesBelow (h : m.Inside id scope) : ∃ depth, m.LiesBelow scope depth id := by
  induction h using ReflTransGen.head_induction_on with
  | refl => exact ⟨0, .scope⟩
  | head owned _ ih =>
    obtain ⟨depth, habove⟩ := ih
    exact ⟨depth + 1, habove.member owned⟩

theorem LiesBelow.unique (ht : m.IsTree) {depth' : Nat} (h : m.LiesBelow scope depth id)
    (h' : m.LiesBelow scope depth' id) : depth = depth' := by
  -- the owners above the scope do not lead back to it
  have hup : ∀ {owner depth}, m.Owned scope owner → ¬ m.LiesBelow scope depth owner :=
    fun ho habove => ht.not_inside_of_owned ho habove.inside
  induction h generalizing depth' with
  | scope =>
    cases h' with
    | scope => rfl
    | member above owned => exact absurd above (hup owned)
  | member _ owned ih =>
    cases h' with
    | scope => exact absurd ‹_› (hup owned)
    | member above owned' =>
      obtain rfl := owned.unique owned'
      rw [ih above]

theorem IsTree.exists_depth (ht : m.IsTree) (scope : TypeId) :
    ∃ depthOf : TypeId → Nat, ∀ id, m.Inside id scope →
      ∀ depth, m.LiesBelow scope depth id ↔ depth = depthOf id := by
  have hdepth : ∀ id, ∃ depth, m.Inside id scope → m.LiesBelow scope depth id := fun id => by
    by_cases hid : m.Inside id scope
    · obtain ⟨depth, h⟩ := hid.exists_liesBelow
      exact ⟨depth, fun _ => h⟩
    · exact ⟨0, fun h => absurd h hid⟩
  choose depthOf hdepthOf using hdepth
  refine ⟨depthOf, fun id hid depth => ⟨fun h => h.unique ht (hdepthOf id hid), ?_⟩⟩
  rintro rfl
  exact hdepthOf id hid

def parameterText (m : Model) (a : Parameter) : String :=
  m.signature a.type ++ " " ++ a.name ++ a.defaultValue.elim "" (" = " ++ ·)

def operationText (m : Model) (op : Operation) : String :=
  op.returnType.elim "" (m.signature · ++ " ") ++ op.entity.fullName ++ "(" ++
    ", ".intercalate (op.parameters.map m.parameterText) ++ ") --> " ++
    op.exportName m.libraryPrefix ++ if op.ambiguous then " (ambiguous)" else ""

def typeText (m : Model) (id : TypeId) : String :=
  (m.node id).entityKind.word ++ " " ++ m.fullName id ++
    (m.node id).typedef.elim "" (" = " ++ m.signature ·) ++
    if m.parents id = [] then "" else " : " ++ ", ".intercalate ((m.parents id).map m.fullName)

/-- The lines of a type, in writing. Two spaces to the right of the first one stand the values of an
enumeration, the constants, the attributes and all operations, those that are inherited included. -/
def blockLines (m : Model) (id : TypeId) : List String :=
  let values := ((m.node id).values?.map OrderedMap.entries).getD []
  let held := (m.scope? id).getD {}
  m.typeText id :: (
    values.map (fun value => value.1 ++ value.2.elim "" (" = " ++ ·)) ++
    held.constants.values.map (fun c => "const " ++ c.entity.fullName ++ " = " ++ c.value) ++
    held.attributes.values.map (fun a => "attribute " ++ m.signature a.type ++ " " ++ a.name) ++
    (m.operationTable id).toList.map m.operationText).map ("  " ++ ·)

theorem signature_parameter (m : Model) (a : Parameter) :
    a.signature m.fullName = m.parameterText a := by
  unfold Parameter.signature parameterText
  cases a.defaultValue <;> simp [Parameter.declaration, signature, String.append_assoc]

theorem operationLine_eq (m : Model) (op : Operation) :
    m.operationLine op = m.operationText op := by
  unfold operationLine operationText Operation.signature
  rw [List.map_congr_left fun a _ => signature_parameter m a]
  cases op.returnType <;> simp [signature, String.append_assoc]

theorem headline_eq (m : Model) (id : TypeId) : m.headline id = m.typeText id := by
  unfold headline typeText fullName
  dsimp only
  cases (m.node id).typedef <;> cases m.parents id <;> simp

theorem memberLines_eq (m : Model) (id : TypeId) :
    m.headline id :: (m.memberLines id).map ("  " ++ ·) = m.blockLines id := by
  have hvalue : ∀ value, valueLine value = value.1 ++ value.2.elim "" (" = " ++ ·) := by
    rintro ⟨name, value⟩
    cases value <;> simp [valueLine, String.append_assoc]
  rw [headline_eq, memberLines, blockLines, funext hvalue, funext (operationLine_eq m)]
  cases hs : m.scope? id with
  | none =>
    have hnone : m.operationTable id = .empty := by rw [operationTable, operationTableTo, hs]
    simp [hnone, OperationTable.toList, OperationTable.empty, OrderedMap.values, OrderedMap.empty]
  | some held => simp [Constant.signature, Attribute.signature, signature, String.append_assoc]

theorem listingLine_succ (level : Nat) (text : String) :
    listingLine (level + 1) text = listingLine level ("  " ++ text) := by
  have hspaces : String.ofList (List.replicate (2 * (level + 1)) ' ') =
      String.ofList (List.replicate (2 * level) ' ') ++ "  " := by
    rw [Nat.mul_succ, List.replicate_add, String.ofList_append]
    rfl
  simp only [listingLine, hspaces, String.append_assoc]

/-- A type is listed with its lines, all of them moved to its level. -/
theorem block_eq_join (m : Model) (level : Nat) (id : TypeId) :
    m.block level id = String.join ((m.blockLines id).map (listingLine level)) := by
  rw [block, ← memberLines_eq, List.map_cons, String.join_cons, List.map_map]
  congr 2
  exact List.map_congr_left fun text _ => listingLine_succ level text

theorem join_flatMap {α : Type} (f : α → List String) (l : List α) :
    String.join (l.flatMap f) = String.join (l.map fun a => String.join (f a)) := by
  induction l with
  | nil => rfl
  | cons a l ih => rw [List.flatMap_cons, String.join_append, List.map_cons, String.join_cons, ih]

theorem typesTo_everything_succ (m : Model) (levels : Nat) (scope : TypeId) :
    m.typesTo .everything (levels + 1) scope =
      (m.ownedTypes scope).flatMap fun id => id :: m.typesTo .everything levels id := by
  have hall : ∀ id, Traversal.everything.admits (m.node id).entity = true := fun _ => rfl
  rw [typesTo, List.filter_eq_self.mpr fun id _ => hall id]
  rfl

theorem IsTree.owned_of_mem_ownedTypes (ht : m.IsTree) (h : id ∈ m.ownedTypes scope) :
    m.Owned id scope :=
  (ht.mem_ownedTypes.mp h).1.1

theorem IsTree.typesTo_succ (ht : m.IsTree) {t : Traversal} {height : TypeId → Nat}
    (hr : IsRank (Function.swap m.Owned) m.size height) {levels : Nat}
    (h : height scope ≤ levels) : m.typesTo t (levels + 1) scope = m.typesTo t levels scope := by
  have hlower : ∀ {scope id}, id ∈ m.ownedTypes scope → height id < height scope := fun hid =>
    hr.lt (ht.owned_of_mem_ownedTypes hid)
  induction levels generalizing scope with
  | zero =>
    have hnone : m.ownedTypes scope = [] := List.eq_nil_iff_forall_not_mem.mpr fun id hid => by
      have hlt := hlower hid
      omega
    simp [typesTo, hnone]
  | succ levels ih =>
    rw [typesTo, typesTo]
    refine List.flatMap_congr fun id hid => ?_
    have hlt := hlower (List.mem_filter.mp hid).1
    rw [ih (by omega)]

/-- The listing goes through the types as a walk over everything does. -/
theorem IsTree.listingTo_eq (ht : m.IsTree) {depthOf : TypeId → Nat}
    (hdepth : ∀ {id owner}, m.Owned id owner → m.Inside owner scope →
      depthOf id = depthOf owner + 1) (levels : Nat) (hid : m.Inside id scope) :
    m.listingTo (levels + 1) (depthOf id) id =
      String.join ((id :: m.typesTo .everything levels id).flatMap fun x =>
        (m.blockLines x).map (listingLine (depthOf x))) := by
  induction levels generalizing id with
  | zero =>
    have hnone : String.join ((m.ownedTypes id).map (m.listingTo 0 (depthOf id + 1))) =
        String.join ((m.ownedTypes id).flatMap fun _ => []) := (join_flatMap (fun _ => []) _).symm
    rw [listingTo, block_eq_join, hnone, List.flatMap_eq_nil_iff.mpr fun _ _ => rfl, typesTo]
    simp
  | succ levels ih =>
    have hmembers : ∀ c ∈ m.ownedTypes id, m.listingTo (levels + 1) (depthOf id + 1) c =
        String.join ((c :: m.typesTo .everything levels c).flatMap fun x =>
          (m.blockLines x).map (listingLine (depthOf x))) := fun c hc => by
      have howned := ht.owned_of_mem_ownedTypes hc
      rw [← hdepth howned hid, ih (.head howned hid)]
    rw [listingTo, List.map_congr_left hmembers, block_eq_join, List.flatMap_cons,
      String.join_append, typesTo_everything_succ, List.flatMap_assoc, join_flatMap]

/-- A listing consists of the lines of the scope and of all types that a walk over everything lists,
in this order. The lines of each are moved to the right by two spaces for every owner that leads
from the type up to the scope. -/
theorem Reachable.listing_eq_blocks (h : Reachable p m) (scope : TypeId) :
    ∃ depthOf : TypeId → Nat,
      (∀ id ∈ scope :: m.types scope .everything, ∀ depth,
        m.LiesBelow scope depth id ↔ depth = depthOf id) ∧
      m.listing scope = String.join ((scope :: m.types scope .everything).flatMap fun id =>
        (m.blockLines id).map (listingLine (depthOf id))) := by
  have ht := h.sound.isTree
  obtain ⟨depthOf, hdepthOf⟩ := ht.exists_depth scope
  refine ⟨depthOf, fun id hid => hdepthOf id ?_, ?_⟩
  · obtain rfl | hid := List.mem_cons.mp hid
    · exact .refl
    · have hbelow := ((h.types_visited .everything scope).2.1 id).mp hid
      exact TransGen.to_reflTransGen hbelow.1.below
  · have hdepth : ∀ {id owner}, m.Owned id owner → m.Inside owner scope →
        depthOf id = depthOf owner + 1 := fun {id owner} ho hi => by
      have habove := (hdepthOf owner hi _).mpr rfl
      exact ((hdepthOf id (.head ho hi) _).mp (habove.member ho)).symm
    have hscope : depthOf scope = 0 := ((hdepthOf scope .refl 0).mp .scope).symm
    obtain ⟨height, hr⟩ := ht.exists_height
    have hlisting := ht.listingTo_eq hdepth m.size .refl
    rw [hscope] at hlisting
    rw [listing, types, ht.typesTo_succ hr (hr.le scope), hlisting]

/-- In the root lies the namespace `n`, and in it a class `A` with a constant and two operations, an
enumeration `E`, and a class `B` that derives from `A`, stands for `E` and has an attribute. -/
theorem listing_eq_blocks_of_classes : ∃ m, Reachable .free m ∧
    m.types .root .everything = [⟨1⟩, ⟨2⟩, ⟨3⟩, ⟨4⟩] ∧
    m.blockLines ⟨2⟩ = ["class n::A", "  const n::A::K = 1",
      "  n::E n::A::get(n::E e = X) --> rbind_n_A_get", "  n::A::get() --> rbind_n_A_get2"] ∧
    m.blockLines ⟨3⟩ = ["enum n::E", "  X = 0", "  Y"] ∧
    m.blockLines ⟨4⟩ = ["class n::B = n::E : n::A", "  attribute n::E e",
      "  const n::E n::B::get_e() --> rbind_n_B_get_e",
      "  n::E n::B::get(n::E e = X) --> rbind_n_B_get", "  n::B::get() --> rbind_n_B_get2"] ∧
    ∃ depthOf : TypeId → Nat, [⟨0⟩, ⟨1⟩, ⟨2⟩, ⟨3⟩, ⟨4⟩].map depthOf = [0, 1, 2, 2, 2] ∧
      m.listing .root = String.join ([⟨0⟩, ⟨1⟩, ⟨2⟩, ⟨3⟩, ⟨4⟩].flatMap fun id =>
        (m.blockLines id).map fun line =>
          String.ofList (List.replicate (2 * depthOf id) ' ') ++ line ++ "\n") := by
  let e : TypeRef := .raw ⟨3⟩
  let parameter : Parameter := { entity := { name := "e" }, type := e, defaultValue := some "X" }
  let get : Operation := { entity := { name := "get" } }
  let actions : List Action :=
    [.addType .root (declaration .classType "n" "A") true,
      .addType .root { entity := { name := "E", scopePath := "n" }, kind := .enumeration .empty }
        true,
      .addType .root (declaration .classType "n" "B") true,
      .addConstant ⟨2⟩ { entity := { name := "K" }, value := "1" },
      .addOperation ⟨2⟩ { get with returnType := some e, parameters := [parameter] },
      .addOperation ⟨2⟩ get, .addEnumValue ⟨3⟩ "X" (some "0"), .addEnumValue ⟨3⟩ "Y" none,
      .addParent ⟨4⟩ ⟨2⟩, .annotate ⟨4⟩ (.typedef e),
      .addAttribute ⟨4⟩ { entity := { name := "e" }, type := e }]
  have hE : TypeNode.IsFresh .free
      { entity := { name := "E", scopePath := "n" }, kind := .enumeration .empty } :=
    { owner := rfl, members := nofun, isRoot := rfl, name := nofun, scopePath := nofun,
      aliasName := nofun, specialization := rfl, specializer := nofun }
  have h : Reachable .free (bare.afterAll actions) := by
    refine reachable_bare.afterAll ?_
    simp only [actions, List.forall_mem_cons, List.not_mem_nil, false_imp_iff, implies_true,
      and_true]
    exact ⟨fun _ => isFresh_declaration nofun nofun, fun _ => hE,
      fun _ => isFresh_declaration nofun nofun, fun _ => nofun, fun _ => nofun, fun _ => nofun,
      fun _ => trivial, fun _ => trivial, fun _ => trivial, fun _ => trivial, fun _ => trivial⟩
  have htypes : (bare.afterAll actions).types .root .everything = [⟨1⟩, ⟨2⟩, ⟨3⟩, ⟨4⟩] := by
    decide +kernel
  obtain ⟨depthOf, hdepth, hlisting⟩ := h.listing_eq_blocks .root
  rw [htypes] at hdepth hlisting
  refine ⟨_, h, htypes, by decide +kernel, by decide +kernel, by decide +kernel, depthOf, ?_,
    hlisting⟩
  have hn : (bare.afterAll actions).owner? ⟨1⟩ = some .root := by decide +kernel
  have hmember : ∀ id ∈ [⟨2⟩, ⟨3⟩, ⟨4⟩], (bare.afterAll actions).owner? id = some ⟨1⟩ := by
    decide +kernel
  have hdepthn := LiesBelow.scope.member hn
  have hdepthTwo : ∀ id ∈ [⟨2⟩, ⟨3⟩, ⟨4⟩], depthOf id = 2 := fun id hid =>
    ((hdepth id (List.mem_cons_of_mem _ (List.mem_cons_of_mem _ hid)) 2).mp
      (hdepthn.member (hmember id hid))).symm
  simp only [List.map_cons, List.map_nil, List.cons.injEq, and_true]
  exact ⟨((hdepth _ (by decide) 0).mp .scope).symm, ((hdepth _ (by decide) 1).mp hdepthn).symm,
    hdepthTwo _ (by decide), hdepthTwo _ (by decide), hdepthTwo _ (by decide)⟩

end ApiModel.Model
