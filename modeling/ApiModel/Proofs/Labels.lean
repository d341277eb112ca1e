import ApiModel.Proofs.Brackets
import ApiModel.Proofs.Histories
import ApiModel.Proofs.Scopes

/-!
Names with template brackets in a model whose users give none. Only the classes made from templates
have such names, and each of them keeps the name that its template and its arguments had in writing
when it was made.
-/

namespace ApiModel

open Relation Template

/-- The name and the alias of the second node are those of the first, or the policy admits them. -/
structure TypeNode.Relabeled (p : Policy) (a b : TypeNode) : Prop where
  name : b.name = a.name ∨ p.Allows b.name
  aliasName : b.entity.aliasName = a.entity.aliasName ∨
    ∀ text, b.entity.aliasName = some text → p.Allows text

namespace TypeNode.Relabeled

variable {p : Policy} {a b c : TypeNode}

theorem of_eq (hn : b.name = a.name) (ha : b.entity.aliasName = a.entity.aliasName) :
    a.Relabeled p b := ⟨.inl hn, .inl ha⟩

theorem refl (a : TypeNode) : a.Relabeled p a := of_eq rfl rfl

theorem trans (h : a.Relabeled p b) (h' : b.Relabeled p c) : a.Relabeled p c where
  name := by
    obtain he | ha := h'.name
    · rw [he]
      exact h.name
    · exact .inr ha
  aliasName := by
    obtain he | ha := h'.aliasName
    · rw [he]
      exact h.aliasName
    · exact .inr ha

theorem mapScope (f : Scope → Scope) (a : TypeNode) : a.Relabeled p (a.mapScope f) :=
  of_eq (a.name_mapScope f) (by rw [entity_mapScope])

end TypeNode.Relabeled

theorem TypeNode.Repathed.relabeled {p : Policy} {a b : TypeNode} (h : a.Repathed b) :
    a.Relabeled p b :=
  .of_eq (h.apply_eq (fun _ _ => rfl) fun _ node => node.name_mapScope _)
    (h.apply_eq (g := fun node => node.entity.aliasName) (fun _ _ => rfl) fun _ node => by
      rw [entity_mapScope])

/-- Neither the name nor the path of the node ends inside of template arguments. -/
structure TypeNode.Closes (node : TypeNode) : Prop where
  name : Closing node.name.toList
  path : Closed node.entity.scopePath.toList

theorem TypeNode.IsFresh.closes {node : TypeNode} {p : Policy} (hp : p.plainNames)
    (h : node.IsFresh p) : node.Closes :=
  ⟨closing_of_not_mem (h.name hp), closed_of_not_mem (h.scopePath hp)⟩

namespace Model

variable {p : Policy} {m m' : Model} {id s : TypeId}

theorem relabeled_modifyScope (f : Scope → Scope) (j id : TypeId) :
    (m.node id).Relabeled p ((m.modifyNode j (·.mapScope f)).node id) :=
  rel_modifyNode .refl (.mapScope f _) id

/-- Nodes that were handed out get no names but such that the policy admits. -/
theorem Change.relabeled (h : Change p m m') (id : TypeId) :
    (m.node id).Relabeled p (m'.node id) ∨ id = m.next ∧ Born p m (m'.node id) := by
  cases h with
  | declared fresh => exact (Born.declared fresh).node_cases .refl id
  | specialized template => exact (Born.specialized template).node_cases .refl id
  | annotated same =>
    have hsame := rel_modifyNode .refl same id
    exact .inl ⟨.inl hsame.name, hsame.aliasName⟩
  | released =>
    exact .inl ((relabeled_modifyScope _ _ _).trans (rel_modifyNode .refl (.of_eq rfl rfl) id))
  | named _ _ _ allowed => exact .inl (rel_modifyNode .refl ⟨.inr allowed, .inl rfl⟩ id)
  | @linked scope j =>
    have hclaimed : (m.node id).Relabeled p ((m.claimed scope j).node id) :=
      rel_modifyNode .refl (.of_eq rfl rfl) id
    exact .inl ((hclaimed.trans (relabeled_modifyScope _ _ _)).trans
      ((repathed_refreshPaths _ _).node id).relabeled)
  | stranded => exact .inl (rel_modifyNode .refl (.of_eq rfl rfl) id)
  | typedefAdded | operationAdded | constantAdded | attributeAdded | parentAdded | usedAdded =>
    exact .inl (relabeled_modifyScope _ _ _)
  | consulted => exact .inl (.refl _)

def Closes (m : Model) : Prop := ∀ id, (m.node id).Closes

namespace Closes

theorem fullName (h : m.Closes) (id : TypeId) : Closed (m.fullName id).toList :=
  closed_qualify (h id).path (h id).name.closed

theorem scopePath (h : m.Closes) (id : TypeId) : Closed (m.scopePath id).toList := by
  unfold Model.scopePath
  split
  · exact closed_of_not_mem (by decide)
  · exact h.fullName id

theorem signature (h : m.Closes) (ty : TypeRef) : Closed (m.signature ty).toList :=
  closed_render h.fullName ty

theorem specializationName (h : m.Closes) {template : TypeId}
    (ht : '<' ∉ (m.node template).name.toList) (arguments : List TypeRef) :
    Closing (m.specializationName template arguments).toList := by
  have hinner : Closed (",".intercalate (arguments.map m.signature)).toList :=
    closed_intercalate fun text htext => by
      obtain ⟨ty, -, rfl⟩ := List.mem_map.mp htext
      exact h.signature ty
  have hname : (m.specializationName template arguments).toList =
      (m.node template).name.toList ++
        '<' :: ((",".intercalate (arguments.map m.signature)).toList ++ ['>']) := by
    simp [Model.specializationName]
  rw [hname]
  exact closing_specialization ht hinner

theorem allocated {node : TypeNode} (h : m.Closes) (hn : node.Closes) :
    (m.allocated node).Closes := by
  intro id
  by_cases hid : id = m.next
  · rw [hid, node_allocated_next]
    exact hn
  · rw [node_allocated_of_ne hid]
    exact h id

theorem modifyNode {f : TypeNode → TypeNode} (h : m.Closes)
    (hf : (m.node id).Closes → (f (m.node id)).Closes) : (m.modifyNode id f).Closes := fun j =>
  rel_modifyNode (R := fun a b => a.Closes → b.Closes) (fun _ h => h) hf j (h j)

theorem modifyScope (h : m.Closes) (id : TypeId) (f : Scope → Scope) :
    (m.modifyNode id (·.mapScope f)).Closes :=
  h.modifyNode fun hn => ⟨by simpa using hn.name, by simpa using hn.path⟩

theorem refreshPathsTo (levels : Nat) (id : TypeId) (h : m.Closes) :
    (Model.refreshPathsTo levels id m).Closes := by
  induction levels generalizing id m with
  | zero => exact h
  | succ levels ih =>
    cases hs : m.scope? id with
    | none =>
      rw [Model.refreshPathsTo, hs]
      exact h
    | some scope =>
      have hpath := h.scopePath id
      rw [refreshPathsTo_succ hs]
      refine List.foldlRecOn (motive := Closes) _ _ (h.modifyScope id _) fun m h child _ => ?_
      rw [refreshChild]
      split
      · exact ih child (h.modifyNode fun hn => ⟨hn.name, hpath⟩)
      · exact h

theorem refreshPaths (h : m.Closes) (id : TypeId) : (Model.refreshPaths id m).Closes :=
  h.refreshPathsTo _ id

end Closes

theorem Change.closes (hp : p.plainNames) (h : Change p m m') (hm : m.Closes)
    (ht : ∀ id, (m.node id).isTemplate = true → '<' ∉ (m.node id).name.toList) : m'.Closes := by
  have hempty : Closed "".toList := closed_of_not_mem (by decide)
  cases h with
  | declared fresh => exact hm.allocated (fresh.closes hp)
  | specialized template => exact hm.allocated ⟨hm.specializationName (ht _ template) _, hempty⟩
  | annotated same =>
    refine hm.modifyNode fun hn => ⟨?_, ?_⟩
    · rw [same.name]
      exact hn.name
    · rw [same.scopePath]
      exact hn.path
  | released => exact (hm.modifyScope _ _).modifyNode fun hn => ⟨hn.name, hempty⟩
  | named _ _ _ allowed =>
    exact hm.modifyNode fun hn => ⟨closing_of_not_mem (allowed hp), hn.path⟩
  | @linked scope id =>
    have hclaimed : (m.claimed scope id).Closes :=
      hm.modifyNode fun hn => ⟨hn.name, hm.scopePath scope⟩
    exact (hclaimed.modifyScope _ _).refreshPaths _
  | @stranded scope => exact hm.modifyNode fun hn => ⟨hn.name, hm.scopePath scope⟩
  | typedefAdded | operationAdded | constantAdded | attributeAdded | parentAdded | usedAdded =>
    exact hm.modifyScope _ _
  | consulted => exact hm

/-- On a course through the listed models the class was made from the template and the arguments,
and it has the name that was written for them then. -/
def NamedFor (models : List Model) (m : Model) (id : TypeId) (made : Specialization) : Prop :=
  ∃ m₀, Passes models m m₀ (m₀.allocated
      (.specialized (m₀.specializationName made.template made.arguments) made)) ∧
    m₀.next = id ∧ (m.node id).name = m₀.specializationName made.template made.arguments

/-- What holds of template brackets in names when the policy admits none. -/
structure Bracketed (m : Model) : Prop where
  closes : m.Closes
  /-- Only classes made from templates have names with brackets. -/
  made : ∀ id, '<' ∈ (m.node id).name.toList → ∃ made, (m.node id).specialization = some made
  notTemplate : ∀ id, (m.node id).specialization ≠ none → (m.node id).isTemplate = false
  aliasName : ∀ id text, (m.node id).entity.aliasName = some text → '<' ∉ text.toList
  typeAliases : ∀ s a, m.scope? s = some a → ∀ name ty, a.typeAliases.get? name = some ty →
    '<' ∉ name.toList

theorem Bracketed.name_of_isTemplate (h : Bracketed m) (ht : (m.node id).isTemplate = true) :
    '<' ∉ (m.node id).name.toList := by
  intro hb
  obtain ⟨made, hmade⟩ := h.made id hb
  have hnot := h.notTemplate id (by simp [hmade])
  rw [ht] at hnot
  cases hnot

/-- What a write adds to the aliases in a scope is the alias of a node or a typedef. -/
theorem ScopeStep.typeAliases_cases {a b : Scope} (h : ScopeStep p m s a b) {name : String}
    {ty : TypeRef} (hb : b.typeAliases.get? name = some ty) :
    (∃ ty, a.typeAliases.get? name = some ty) ∨
      (∃ id, (m.node id).entity.aliasName = some name) ∨ p.Allows name := by
  cases h with
  | @typeEntered entity id _ aliasName =>
    unfold Scope.enterType at hb
    cases ht : entity.aliasName with
    | none =>
      rw [ht] at hb
      exact .inl ⟨ty, hb⟩
    | some text =>
      rw [ht] at hb
      dsimp only at hb
      rw [OrderedMap.get?_insert] at hb
      split at hb
      · next he => exact .inr (.inl ⟨id, by rw [← aliasName, ht, he]⟩)
      · exact .inl ⟨ty, hb⟩
  | typeRemoved =>
    have hfilter := hb
    unfold Scope.removeType at hfilter
    rw [OrderedMap.get?_filter] at hfilter
    obtain ⟨hget, -⟩ := Option.filter_eq_some_iff.mp hfilter
    exact .inl ⟨ty, hget⟩
  | typedefAdded allowed =>
    rw [OrderedMap.get?_insert] at hb
    split at hb
    · next he => exact .inr (.inr (he ▸ allowed))
    · exact .inl ⟨ty, hb⟩
  | usedAdded =>
    refine .inl ⟨ty, ?_⟩
    unfold Scope.use at hb
    split at hb <;> exact hb
  | pathsWritten | operationAdded | constantAdded | attributeAdded | parentAdded =>
    exact .inl ⟨ty, hb⟩

theorem knows_of_specialization {made : Specialization}
    (h : (m.node id).specialization = some made) : m.Knows id := by
  by_contra hk
  rw [node_of_not_knows hk] at h
  cases h

theorem Change.bracketed (hp : p.plainNames) (h : Change p m m') (hm : Bracketed m) :
    Bracketed m' where
  closes := h.closes hp hm.closes fun _ => hm.name_of_isTemplate
  made id hb := by
    obtain hr | ⟨-, hborn⟩ := h.relabeled id
    · obtain hname | hplain := hr.name
      · rw [hname] at hb
        obtain ⟨made, hmade⟩ := hm.made id hb
        have hknows := knows_of_specialization hmade
        exact ⟨made, (h.sameKind hknows).specialization.trans hmade⟩
      · exact absurd hb (hplain hp)
    · generalize m'.node id = node at hborn hb
      cases hborn with
      | declared fresh => exact absurd hb (fresh.name hp)
      | specialized => exact ⟨_, rfl⟩
  notTemplate id hmade := by
    obtain hk | ⟨-, hborn⟩ := h.kind_cases id
    · rw [hk.specialization] at hmade
      rw [hk.isTemplate]
      exact hm.notTemplate id hmade
    · generalize m'.node id = node at hborn hmade
      cases hborn with
      | declared fresh => exact absurd fresh.specialization hmade
      | specialized => rfl
  aliasName id text ha := by
    obtain hr | ⟨-, hborn⟩ := h.relabeled id
    · obtain he | hplain := hr.aliasName
      · exact hm.aliasName id text (he ▸ ha)
      · exact hplain text ha hp
    · generalize m'.node id = node at hborn ha
      cases hborn with
      | declared fresh => exact fresh.aliasName text ha hp
      | specialized => cases ha
  typeAliases := by
    refine h.forall_scope (P := fun _ a => ∀ name ty, a.typeAliases.get? name = some ty →
      '<' ∉ name.toList) (fun _ name ty hg => by cases hg) ?_ hm.typeAliases
    intro s a b ha hstep name ty hb
    obtain ⟨ty', hg⟩ | ⟨id, halias⟩ | hplain := hstep.typeAliases_cases hb
    · exact ha name ty' hg
    · exact hm.aliasName id name halias
    · exact hplain hp

theorem bracketed_rootOnly {config : Config} (hp : p.plainNames) (hw : config.Within p)
    (h : rootOnly config = .ok m) : Bracketed m := by
  have hnode : ∀ id, (m.node id).Closes ∧ '<' ∉ (m.node id).name.toList ∧
      (m.node id).specialization = none ∧ (m.node id).entity.aliasName = none := by
    intro id
    obtain ⟨-, entity, he, hn⟩ | ⟨-, hn⟩ := node_rootOnly h id
    · have hfresh : ({ entity, kind := .container .namespaceType {} } : TypeNode).IsFresh p := by
        refine @PlainKind.isFresh_of_ofName p .namespaceType _ _ ?_ hw.rootName
        rw [TypeNode.ofName, he]
        rfl
      rw [hn]
      exact ⟨⟨(hfresh.closes hp).name, (hfresh.closes hp).path⟩, hfresh.name hp, rfl,
        (Entity.unattached_of_ofName he).2⟩
    · rw [hn]
      exact ⟨⟨closing_of_not_mem (by decide), closed_of_not_mem (by decide)⟩, by decide, rfl, rfl⟩
  exact {
    closes := fun id => (hnode id).1
    made := fun id hb => absurd hb (hnode id).2.1
    notTemplate := fun id hmade => absurd (hnode id).2.2.1 hmade
    aliasName := fun id text ha => by simp [(hnode id).2.2.2] at ha
    typeAliases := fun s a hs name ty hg => by
      rw [scope?_rootOnly h hs] at hg
      cases hg }

theorem Reachable.bracketed (hp : p.plainNames) (h : Reachable p m) : Bracketed m :=
  h.induct (bracketed_rootOnly hp) fun _ hm hc => hc.bracketed hp hm

theorem specialization_rootOnly {config : Config} (h : rootOnly config = .ok m) (id : TypeId) :
    (m.node id).specialization = none := by
  obtain ⟨-, entity, -, hn⟩ | ⟨-, hn⟩ := node_rootOnly h id
  · rw [hn]
  · rw [hn]
    rfl

theorem Change.specialization_cases (h : Change p m m') {made : Specialization}
    (hmade : (m'.node id).specialization = some made) :
    (m.node id).specialization = some made ∨ id = m.next ∧
      m' = m.allocated (.specialized (m.specializationName made.template made.arguments) made) := by
  obtain hk | ⟨rfl, hborn⟩ := h.kind_cases id
  · exact .inl (hk.specialization.symm.trans hmade)
  have hk := knows_of_specialization hmade
  cases h with
  | declared fresh =>
    rw [node_allocated_next, fresh.specialization] at hmade
    cases hmade
  | specialized =>
    rw [node_allocated_next] at hmade
    obtain rfl := Option.some.inj hmade
    exact .inr ⟨rfl, rfl⟩
  | consulted => exact .inl hmade
  | _ =>
    refine absurd (a := m.Knows m.next) ?_ not_knows_next
    simpa [Knows, Model.released, Model.named, claimed, withTypedef, withOperation, withConstant,
      withAttribute, withParent, withUsed] using hk

theorem NamedFor.step {models : List Model} {made : Specialization}
    (h : NamedFor models m id made) (hname : (m'.node id).name = (m.node id).name) :
    NamedFor (models ++ [m]) m' id made := by
  obtain ⟨m₀, hpasses, hid, hnamed⟩ := h
  exact ⟨m₀, hpasses.step m', hid, hname.trans hnamed⟩

theorem Change.namedFor (hp : p.plainNames) (h : Change p m m') {models : List Model}
    (hm : ∀ id made, (m.node id).specialization = some made → '<' ∈ (m.node id).name.toList →
      NamedFor models m id made) {made : Specialization}
    (hmade : (m'.node id).specialization = some made) (hb : '<' ∈ (m'.node id).name.toList) :
    NamedFor (models ++ [m]) m' id made := by
  obtain hbefore | ⟨rfl, rfl⟩ := h.specialization_cases hmade
  · obtain hr | ⟨rfl, -⟩ := h.relabeled id
    · obtain hname | hplain := hr.name
      · exact (hm id made hbefore (hname ▸ hb)).step hname
      · exact absurd hb (hplain hp)
    · exact absurd (knows_of_specialization hbefore) not_knows_next
  · exact ⟨m, passes_last models m _, rfl, by rw [node_allocated_next]; rfl⟩

/-- A class that was made from a template and has a name with brackets was named for the template
and the arguments that it was made from. -/
theorem Course.namedFor (hp : p.plainNames) {steps : List (Model × Action)} {models : List Model}
    (h : Course p steps models m) : ∀ id made, (m.node id).specialization = some made →
      '<' ∈ (m.node id).name.toList → NamedFor models m id made :=
  h.induct (P := fun models m => ∀ id made, (m.node id).specialization = some made →
      '<' ∈ (m.node id).name.toList → NamedFor models m id made)
    (fun _ hroot id made hmade => by
      rw [specialization_rootOnly hroot] at hmade
      cases hmade)
    fun _ hm hc _ _ => hc.namedFor hp hm

end Model

end ApiModel
