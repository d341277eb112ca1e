import ApiModel.Proofs.Tree

/-!
The walk that writes the paths below a scope anew. It changes nothing but paths, leaves everything
outside the scope alone, and afterwards the members of each scope inside carry the path of that
scope.
-/

namespace ApiModel

open Relation

namespace TypeNode

/-- The second node is the first with other paths, its own or those of its members. -/
inductive Repathed (a : TypeNode) : TypeNode → Prop
  | refl : Repathed a a
  | own {b : TypeNode} (path : String) :
      Repathed a b → Repathed a (b.mapEntity (·.setScopePath path))
  | members {b : TypeNode} (path : String) :
      Repathed a b → Repathed a (b.mapScope (·.setMemberPaths path))

namespace Repathed

variable {a b c : TypeNode}

theorem trans (hab : a.Repathed b) (hbc : b.Repathed c) : a.Repathed c := by
  induction hbc with
  | refl => exact hab
  | own path _ ih => exact .own path ih
  | members path _ ih => exact .members path ih

theorem apply_eq {α : Type} {g : TypeNode → α}
    (hown : ∀ path node, g (node.mapEntity (·.setScopePath path)) = g node)
    (hmembers : ∀ path node, g (node.mapScope (·.setMemberPaths path)) = g node)
    (h : a.Repathed b) : g b = g a := by
  induction h with
  | refl => rfl
  | own path _ ih => rw [hown, ih]
  | members path _ ih => rw [hmembers, ih]

theorem entityKind_eq (h : a.Repathed b) : b.entityKind = a.entityKind :=
  h.apply_eq (fun _ _ => rfl) (fun _ node => node.entityKind_mapScope _)

theorem specialization_eq (h : a.Repathed b) : b.specialization = a.specialization :=
  h.apply_eq (fun _ _ => rfl) (fun _ node => node.specialization_mapScope _)

theorem specializer?_eq (h : a.Repathed b) : b.specializer? = a.specializer? :=
  h.apply_eq (fun _ _ => rfl) (fun _ node => node.specializer?_mapScope _)

theorem map_scope?_eq {α : Type} {g : Scope → α}
    (hg : ∀ path scope, g (scope.setMemberPaths path) = g scope) (h : a.Repathed b) :
    b.scope?.map g = a.scope?.map g :=
  h.apply_eq (g := fun node => node.scope?.map g) (fun _ _ => rfl) fun path node => by
    simp [Option.map_map, Function.comp_def, hg]

theorem sameShape (h : a.Repathed b) : a.SameShape b where
  name := h.apply_eq (fun _ _ => rfl) (fun _ node => node.name_mapScope _)
  owner := h.apply_eq (g := fun node => node.entity.owner) (fun _ _ => rfl) (fun _ _ => by simp)
  isRoot := h.apply_eq (fun _ _ => rfl) (fun _ node => node.isRoot_mapScope _)
  types := h.map_scope?_eq fun _ _ => rfl

end Repathed

end TypeNode

@[simp] theorem OperationTable.toList_map (f : Operation → Operation) (t : OperationTable) :
    (t.map f).toList = t.toList.map f := by
  simp [toList, OperationTable.map, OrderedMap.values, OrderedMap.mapValues, List.map_flatten,
    List.map_map, Function.comp_def]

@[simp] theorem OrderedMap.values_mapValues {κ ν : Type} (f : ν → ν) (m : OrderedMap κ ν) :
    (m.mapValues f).values = m.values.map f := by
  simp [values, mapValues, List.map_map, Function.comp_def]

namespace Scope

def entities (s : Scope) : List Entity :=
  s.operations.toList.map Operation.entity ++ s.constants.values.map Constant.entity ++
    s.attributes.values.map Attribute.entity

def HasPath (path : String) (s : Scope) : Prop := ∀ e ∈ s.entities, e.scopePath = path

theorem entities_setMemberPaths (path : String) (s : Scope) :
    (s.setMemberPaths path).entities = s.entities.map (·.setScopePath path) := by
  simp [entities, setMemberPaths, List.map_map, Function.comp_def, Operation.mapEntity]

theorem hasPath_setMemberPaths (path : String) (s : Scope) :
    (s.setMemberPaths path).HasPath path := by
  intro e he
  rw [entities_setMemberPaths] at he
  obtain ⟨e', -, rfl⟩ := List.mem_map.mp he
  rfl

end Scope

namespace Model

/-- The models differ at most in paths. -/
structure Repathed (m m' : Model) : Prop where
  node : ∀ id, (m.node id).Repathed (m'.node id)
  size_eq : m'.size = m.size
  config_eq : m'.config = m.config
  hook_eq : m'.hook = m.hook
  journal_eq : m'.journal = m.journal

namespace Repathed

variable {m m' m'' : Model}

theorem refl (m : Model) : m.Repathed m := ⟨fun _ => .refl, rfl, rfl, rfl, rfl⟩

theorem trans (h : m.Repathed m') (h' : m'.Repathed m'') : m.Repathed m'' where
  node id := (h.node id).trans (h'.node id)
  size_eq := h'.size_eq.trans h.size_eq
  config_eq := h'.config_eq.trans h.config_eq
  hook_eq := h'.hook_eq.trans h.hook_eq
  journal_eq := h'.journal_eq.trans h.journal_eq

theorem own (m : Model) (id : TypeId) (path : String) :
    m.Repathed (m.modifyNode id (·.mapEntity (·.setScopePath path))) where
  node := rel_modifyNode (fun _ => .refl) (.own path .refl)
  size_eq := size_modifyNode ..
  config_eq := rfl
  hook_eq := rfl
  journal_eq := rfl

theorem members (m : Model) (id : TypeId) (path : String) :
    m.Repathed (m.modifyNode id (·.mapScope (·.setMemberPaths path))) where
  node := rel_modifyNode (fun _ => .refl) (.members path .refl)
  size_eq := size_modifyNode ..
  config_eq := rfl
  hook_eq := rfl
  journal_eq := rfl

theorem sameShape (h : m.Repathed m') : m.SameShape m' where
  size_eq := h.size_eq
  node id := (h.node id).sameShape

theorem owned_eq (h : m.Repathed m') : m'.Owned = m.Owned := h.sameShape.owned_eq

theorem member_eq (h : m.Repathed m') : m'.Member = m.Member := by
  funext a b
  simp [Member, h.owned_eq, (h.node b).sameShape.isContainer]

theorem below_eq (h : m.Repathed m') : m'.Below = m.Below := by
  rw [Below, Below, h.member_eq]

end Repathed

def Placed (m : Model) (s : TypeId) : Prop :=
  ∀ scope, m.scope? s = some scope →
    (∀ id, m.Owned id s → (m.node id).entity.scopePath = m.scopePath s) ∧
      scope.HasPath (m.scopePath s)

structure Refreshed (m : Model) (id : TypeId) (m' : Model) : Prop where
  repathed : m.Repathed m'
  outside : ∀ j, ¬ m.Below j id → m'.node j = m.node j
  top : (m'.node id).entity = (m.node id).entity
  placed : ∀ s, m.Below s id → m'.Placed s

variable {m m' : Model}

theorem scopePath_congr {s : TypeId} (he : (m'.node s).entity = (m.node s).entity)
    (hr : (m'.node s).isRoot = (m.node s).isRoot) : m'.scopePath s = m.scopePath s := by
  simp [scopePath, fullName, TypeNode.fullName, he, hr]

/-- Whether a scope is placed depends on its own node and on those of its members. -/
theorem Placed.congr {s : TypeId} (h : m.Placed s) (ho : m'.Owned = m.Owned)
    (hs : m'.node s = m.node s)
    (ht : ∀ id, m.Member id s → m'.node id = m.node id) : m'.Placed s := by
  have hp : m'.scopePath s = m.scopePath s := scopePath_congr (by rw [hs]) (by rw [hs])
  intro scope hscope
  have hscope' : m.scope? s = some scope := by rw [← hscope, scope?, scope?, hs]
  obtain ⟨htypes, hmembers⟩ := h scope hscope'
  refine ⟨fun id hid => ?_, hp ▸ hmembers⟩
  rw [ho] at hid
  rw [ht id ⟨hid, isContainer_iff.mpr ⟨scope, hscope'⟩⟩, hp, htypes id hid]

/-- The treatment of one type that a scope lists. -/
def refreshChild (levels : Nat) (id : TypeId) (path : String) (m : Model) (child : TypeId) :
    Model :=
  if m.owner? child = some id then
    refreshPathsTo levels child (m.modifyNode child (·.mapEntity (·.setScopePath path)))
  else m

theorem refreshPathsTo_succ {levels : Nat} {id : TypeId} {scope : Scope}
    (h : m.scope? id = some scope) :
    refreshPathsTo (levels + 1) id m =
      scope.types.values.foldl (refreshChild levels id (m.scopePath id))
        (m.modifyNode id (·.mapScope (·.setMemberPaths (m.scopePath id)))) := by
  rw [refreshPathsTo, h]
  rfl

/-- In every model, a tree or not, the walk changes nothing but paths. -/
theorem repathed_refreshPathsTo (levels : Nat) (id : TypeId) (m : Model) :
    m.Repathed (refreshPathsTo levels id m) := by
  induction levels generalizing id m with
  | zero => exact .refl m
  | succ levels ih =>
    have hchild : ∀ path (m : Model) child, m.Repathed (refreshChild levels id path m child) := by
      intro path m child
      rw [refreshChild]
      split
      · exact (Repathed.own m child path).trans (ih child _)
      · exact .refl m
    have hfold : ∀ path (children : List TypeId) (m : Model),
        m.Repathed (children.foldl (refreshChild levels id path) m) := by
      intro path children
      induction children with
      | nil => exact .refl
      | cons c children ih' => exact fun m => (hchild path m c).trans (ih' _)
    cases hs : m.scope? id with
    | none =>
      rw [refreshPathsTo, hs]
      exact .refl m
    | some scope =>
      rw [refreshPathsTo_succ hs]
      exact (Repathed.members m id _).trans (hfold _ _ _)

theorem repathed_refreshPaths (id : TypeId) (m : Model) : m.Repathed (refreshPaths id m) :=
  repathed_refreshPathsTo _ id m

/-- The second model is the first after some types that belong to a scope were treated. -/
structure ChildrenRefreshed (m : Model) (id : TypeId) (path : String) (children : List TypeId)
    (m' : Model) : Prop where
  repathed : m.Repathed m'
  outside : ∀ j, (∀ c ∈ children, m.Member c id → ¬ m.Below j c) → m'.node j = m.node j
  path : ∀ c ∈ children, m.Member c id → (m'.node c).entity.scopePath = path
  placed : ∀ c ∈ children, m.Member c id → ∀ s, m.Below s c → m'.Placed s

namespace ChildrenRefreshed

variable {id : TypeId} {path : String} {children children' : List TypeId}

theorem nil (m : Model) : ChildrenRefreshed m id path [] m :=
  ⟨.refl m, fun _ _ => rfl, by simp, by simp⟩

/-- Treating one more group of types keeps what was done for the first: no type lies inside a
sibling. -/
theorem append {m'' : Model} (ht : m.IsTree) (h : ChildrenRefreshed m id path children m')
    (h' : ChildrenRefreshed m' id path children' m'') :
    ChildrenRefreshed m id path (children ++ children') m'' := by
  have hsame : ∀ j, (∀ d ∈ children', m.Member d id → ¬ m.Below j d) →
      m''.node j = m'.node j := fun j hj => by
    refine h'.outside j fun d hd hmd => ?_
    rw [h.repathed.member_eq] at hmd
    rw [h.repathed.below_eq]
    exact hj d hd hmd
  refine ⟨h.repathed.trans h'.repathed, fun j hj => ?_, fun c hc hmc => ?_,
    fun c hc hmc s hs => ?_⟩
  · rw [hsame j fun d hd => hj d (List.mem_append_right _ hd)]
    exact h.outside j fun d hd => hj d (List.mem_append_left _ hd)
  · by_cases hc' : c ∈ children'
    · exact h'.path c hc' (h.repathed.member_eq ▸ hmc)
    · rw [hsame c, h.path c ((List.mem_append.mp hc).resolve_right hc') hmc]
      intro d hd hmd hcd
      obtain rfl | ⟨p, hp, hpd⟩ := hcd.head_cases
      · exact hc' hd
      · obtain rfl := hmc.1.unique hp.1
        exact ht.not_below_of_member hmd hpd
  · by_cases hlater : ∃ d ∈ children', m.Member d id ∧ m.Below s d
    · obtain ⟨d, hd, hmd, hsd⟩ := hlater
      exact h'.placed d hd (h.repathed.member_eq ▸ hmd) s (h.repathed.below_eq ▸ hsd)
    · have hmem : c ∈ children :=
        (List.mem_append.mp hc).resolve_right fun hc' => hlater ⟨c, hc', hmc, hs⟩
      refine (h.placed c hmem hmc s hs).congr h'.repathed.owned_eq ?_ fun j hj => ?_
      · exact hsame s fun d hd hmd hsd => hlater ⟨d, hd, hmd, hsd⟩
      · rw [h.repathed.member_eq] at hj
        refine hsame j fun d hd hmd hjd => ?_
        obtain rfl | ⟨p, hp, hpd⟩ := hjd.head_cases
        · obtain rfl := hj.1.unique hmd.1
          exact ht.not_below_of_member hmc hs
        · obtain rfl := hj.1.unique hp.1
          exact hlater ⟨d, hd, hmd, hpd⟩

end ChildrenRefreshed

theorem childrenRefreshed_singleton {levels : Nat} {id c : TypeId} {path : String}
    (hm : m.Member c id)
    (h : Refreshed (m.modifyNode c (·.mapEntity (·.setScopePath path))) c
      (refreshPathsTo levels c (m.modifyNode c (·.mapEntity (·.setScopePath path))))) :
    ChildrenRefreshed m id path [c] (refreshChild levels id path m c) := by
  have ho : m.owner? c = some id := hm.1
  have h₁ := Repathed.own m c path
  rw [refreshChild, if_pos ho]
  refine ⟨h₁.trans h.repathed, fun j hj => ?_, fun d hd _ => ?_, fun d hd _ s hs => ?_⟩
  · have hjc : ¬ m.Below j c := hj c (by simp) hm
    rw [h.outside j (h₁.below_eq ▸ hjc), node_modifyNode_of_ne]
    rintro rfl
    exact hjc .refl
  · obtain rfl := List.mem_singleton.mp hd
    rw [h.top, node_modifyNode_self _ (knows_of_owner ho)]
    rfl
  · obtain rfl := List.mem_singleton.mp hd
    exact h.placed s (h₁.below_eq ▸ hs)

theorem childrenRefreshed_foldl (levels : Nat) {id : TypeId} (path : String)
    (children : List TypeId) (ht : m.IsTree) (hid : (m.node id).isContainer = true)
    (h : ∀ c m', m.Repathed m' → m.Owned c id → Refreshed m' c (refreshPathsTo levels c m')) :
    ChildrenRefreshed m id path children (children.foldl (refreshChild levels id path) m) := by
  induction children generalizing m with
  | nil => exact .nil m
  | cons c children ih =>
    rw [List.foldl_cons]
    by_cases ho : m.Owned c id
    · have hone : ChildrenRefreshed m id path [c] (refreshChild levels id path m c) :=
        childrenRefreshed_singleton ⟨ho, hid⟩ (h c _ (.own m c path) ho)
      refine hone.append ht (ih (ht.congr hone.repathed.sameShape) ?_ fun d m' hm' hod => ?_)
      · rw [(hone.repathed.node id).sameShape.isContainer]
        exact hid
      · exact h d m' (hone.repathed.trans hm') (hone.repathed.owned_eq ▸ hod)
    · have hskip : refreshChild levels id path m c = m := if_neg ho
      have hne : ∀ d, m.Member d id → d ≠ c := fun d hm e => ho (e ▸ hm.1)
      have hrest := ih ht hid h
      rw [hskip]
      refine ⟨hrest.repathed, fun j hj => ?_, fun d hd hm => ?_, fun d hd hm => ?_⟩
      · exact hrest.outside j fun d hd => hj d (List.mem_cons_of_mem c hd)
      · exact hrest.path d (List.mem_of_ne_of_mem (hne d hm) hd) hm
      · exact hrest.placed d (List.mem_of_ne_of_mem (hne d hm) hd) hm

/-- A walk with more levels than there are below the scope writes all paths below it. -/
theorem refreshed_refreshPathsTo {bound levels : Nat} {height : TypeId → Nat} {id : TypeId}
    (hh : IsRank (Function.swap m.Owned) bound height) (ht : m.IsTree)
    (hl : height id < levels) : Refreshed m id (refreshPathsTo levels id m) := by
  induction levels generalizing id m with
  | zero => omega
  | succ levels ih =>
    cases hs : m.scope? id with
    | none =>
      have hsame : refreshPathsTo (levels + 1) id m = m := by rw [refreshPathsTo, hs]
      rw [hsame]
      refine ⟨.refl m, fun _ _ => rfl, rfl, fun s hsid scope hscope => ?_⟩
      -- nothing lies below a node without members but the node itself
      obtain rfl | ⟨c, hc, hcid⟩ := hsid.cases_tail
      · simp [hs] at hscope
      · obtain ⟨scope', hs'⟩ := isContainer_iff.mp hcid.2
        simp [hs] at hs'
    | some scope =>
      have hid : (m.node id).isContainer = true := isContainer_iff.mpr ⟨scope, hs⟩
      rw [refreshPathsTo_succ hs]
      set path := m.scopePath id with hpath
      have h₁ := Repathed.members m id path
      set m₁ := m.modifyNode id (·.mapScope (·.setMemberPaths path))
      have ht₁ := ht.congr h₁.sameShape
      have hfold := childrenRefreshed_foldl levels path scope.types.values ht₁
        (by rwa [(h₁.node id).sameShape.isContainer]) fun c m' hm' ho => by
          have hm : m.Repathed m' := h₁.trans hm'
          have hlt : height c < height id := hh.lt (h₁.owned_eq ▸ ho : m.Owned c id)
          exact ih (hm.owned_eq ▸ hh) (ht.congr hm.sameShape) (by omega)
      set m₂ := scope.types.values.foldl (refreshChild levels id path) m₁
      have hm₂ : m.Repathed m₂ := h₁.trans hfold.repathed
      have hlisted : ∀ c, m.Member c id → c ∈ scope.types.values := fun c hc =>
        ht.mem_values_of_member hc hs
      have hnode : m₂.node id = m₁.node id := by
        refine hfold.outside id fun c _ hc hin => ?_
        exact ht₁.not_below_of_member hc hin
      have hnode₁ : m₁.node id = (m.node id).mapScope (·.setMemberPaths path) := by
        rw [node_modifyScope, if_pos rfl]
      refine ⟨hm₂, fun j hj => ?_, ?_, fun s hsid => ?_⟩
      · have hji : j ≠ id := by
          rintro rfl
          exact hj .refl
        rw [hfold.outside j, node_modifyScope, if_neg hji]
        intro c _ hc hjc
        rw [h₁.member_eq] at hc
        exact hj ((h₁.below_eq ▸ hjc).tail hc)
      · rw [hnode, hnode₁, TypeNode.entity_mapScope]
      · obtain rfl | ⟨c, hsc, hc⟩ := hsid.cases_tail
        · have hp : m₂.scopePath id = path := by
            rw [hpath]
            apply scopePath_congr
            · rw [hnode, hnode₁, TypeNode.entity_mapScope]
            · rw [hnode, hnode₁, TypeNode.isRoot_mapScope]
          intro scope₂ hscope₂
          have hscope₂' : scope₂ = scope.setMemberPaths path := by
            rw [scope?, hnode, hnode₁, TypeNode.scope?_mapScope,
              show (m.node id).scope? = _ from hs] at hscope₂
            exact (Option.some.inj hscope₂).symm
          rw [hp, hscope₂']
          refine ⟨fun c hc => ?_, Scope.hasPath_setMemberPaths path scope⟩
          have hm : m.Member c id := ⟨hm₂.owned_eq ▸ hc, hid⟩
          exact hfold.path c (hlisted c hm) (h₁.member_eq ▸ hm)
        · exact hfold.placed c (hlisted c hc) (h₁.member_eq ▸ hc) s (h₁.below_eq ▸ hsc)

theorem refreshed_refreshPaths (ht : m.IsTree) (id : TypeId) :
    Refreshed m id (refreshPaths id m) := by
  obtain ⟨height, hh⟩ := ht.exists_height
  exact refreshed_refreshPathsTo hh ht (Nat.lt_succ_of_le (hh.le id))

end Model

end ApiModel
