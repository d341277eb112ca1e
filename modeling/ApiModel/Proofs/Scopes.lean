import ApiModel.Proofs.Change

/-!
What the elementary changes of a model do to the members of one scope.
-/

namespace ApiModel

open Relation

namespace Model

variable {p : Policy} {m m' : Model} {s : TypeId} {a b : Scope}

/-- One write to the members of a scope. -/
inductive ScopeStep (p : Policy) (m : Model) (s : TypeId) : Scope → Scope → Prop
  | typeEntered {a : Scope} {entity : Entity} {id : TypeId} (name : entity.name = (m.node id).name)
      (aliasName : entity.aliasName = (m.node id).entity.aliasName) :
      ScopeStep p m s a (a.enterType entity id)
  | typeRemoved {a : Scope} (name : String) (id : TypeId) : ScopeStep p m s a (a.removeType name id)
  | pathsWritten {a : Scope} (path : String) : ScopeStep p m s a (a.setMemberPaths path)
  | typedefAdded {a : Scope} {name : String} {target : TypeRef} (allowed : p.Allows name)
      (own : p.AllowsTypedef m target) :
      ScopeStep p m s a { a with typeAliases := a.typeAliases.insert name target }
  | operationAdded {a : Scope} {op : Operation} (taken : p.Takes op) :
      ScopeStep p m s a
        { a with operations := a.operations.insert m.libraryPrefix (m.ownedOperation s op) }
  | constantAdded {a : Scope} (c : Constant) (forgotten : c.entity.exportCache = none) :
      ScopeStep p m s a { a with constants := a.constants.insert c.name c }
  | attributeAdded {a : Scope} (member : Attribute) :
      ScopeStep p m s a { a with attributes := a.attributes.insert member.name member }
  | parentAdded {a : Scope} {base : TypeId} (other : base ≠ s)
      (isRecord : (m.node base).isRecord = true) (apart : m.derivesFrom base s = false) :
      ScopeStep p m s a { a with parents := a.parents.insert (m.node base).name base }
  | usedAdded {a : Scope} {used : TypeId} (known : m.Knows used) : ScopeStep p m s a (a.use used)

theorem scope_modifyScope {f : Scope → Scope} {id : TypeId}
    (hf : ∀ a, s = id → ScopeStep p m s a (f a))
    (hb : (m.modifyNode id (·.mapScope f)).scope? s = some b) :
    ∃ a, m.scope? s = some a ∧ ReflTransGen (ScopeStep p m s) a b := by
  by_cases hs : s = id
  · subst hs
    rw [scope?_modifyScope_self] at hb
    obtain ⟨a, ha, rfl⟩ := Option.map_eq_some_iff.mp hb
    exact ⟨a, ha, .single (hf a rfl)⟩
  · rw [scope?_modifyScope_of_ne _ hs] at hb
    exact ⟨b, hb, .refl⟩

theorem scope_linked {scope id : TypeId} (hb : (m.linked scope id).scope? s = some b) :
    ∃ a, m.scope? s = some a ∧ ReflTransGen (ScopeStep p m s) a b := by
  have hpaths : ∀ {x y : TypeNode}, x.Repathed y → ∀ b, y.scope? = some b →
      ∃ a, x.scope? = some a ∧ ReflTransGen (ScopeStep p m s) a b := by
    intro x y h
    induction h with
    | refl => exact fun b hb => ⟨b, hb, .refl⟩
    | own path _ ih => exact ih
    | members path _ ih =>
      intro b hb
      rw [TypeNode.scope?_mapScope] at hb
      obtain ⟨c, hc, rfl⟩ := Option.map_eq_some_iff.mp hb
      obtain ⟨a, ha, hac⟩ := ih c hc
      exact ⟨a, ha, hac.tail (.pathsWritten path)⟩
  obtain ⟨c, hc, hcb⟩ := hpaths ((repathed_refreshPaths id _).node s) b hb
  have hentity : ((m.claimed scope id).node id).entity.aliasName =
      (m.node id).entity.aliasName := by
    by_cases hk : m.Knows id
    · rw [claimed, entity_modifyEntity_self _ hk]
      rfl
    · rw [claimed, node_modifyEntity_of_not_knows _ _ hk]
  by_cases hs : s = scope
  · subst hs
    have hc' : ((m.claimed s id).entered s id).scope? s = some c := hc
    rw [entered, scope?_modifyScope_self, claimed, scope?_modifyEntity, ← claimed] at hc'
    obtain ⟨a, ha, rfl⟩ := Option.map_eq_some_iff.mp hc'
    exact ⟨a, ha, .head (.typeEntered (name_claimed id) hentity) hcb⟩
  · have hc' : ((m.claimed scope id).entered scope id).scope? s = some c := hc
    rw [entered, scope?_modifyScope_of_ne _ hs, claimed, scope?_modifyEntity] at hc'
    exact ⟨c, hc', hcb⟩

/-- Members come from those that the scope had, or the scope is new and has none. -/
theorem Change.scope_steps (h : Change p m m') (hb : m'.scope? s = some b) :
    (¬ m.Knows s ∧ b = {}) ∨ ∃ a, m.scope? s = some a ∧ ReflTransGen (ScopeStep p m s) a b := by
  have hsame : m'.scope? s = m.scope? s →
      ∃ a, m.scope? s = some a ∧ ReflTransGen (ScopeStep p m s) a b := fun h =>
    ⟨b, h ▸ hb, .refl⟩
  have hnew : ∀ {node : TypeNode}, node.IsBlank → (m.allocated node).scope? s = some b →
      (¬ m.Knows s ∧ b = {}) ∨ ∃ a, m.scope? s = some a ∧
        ReflTransGen (ScopeStep p m s) a b := by
    intro node hn hb
    by_cases hs : s = m.next
    · subst hs
      rw [scope?, node_allocated_next] at hb
      exact .inl ⟨not_knows_next, hn.members b hb⟩
    · rw [scope?, node_allocated_of_ne hs] at hb
      exact .inr ⟨b, hb, .refl⟩
  cases h with
  | declared fresh => exact hnew fresh.toIsBlank hb
  | specialized => exact hnew ⟨rfl, fun scope hs => by cases hs; rfl, rfl⟩ hb
  | annotated same => exact .inr (hsame (rel_modifyNode .refl same s).scope)
  | released =>
    rw [Model.released, scope?_modifyEntity] at hb
    exact .inr (scope_modifyScope (fun _ _ => .typeRemoved _ _) hb)
  | named | stranded => exact .inr (hsame (scope?_modifyEntity _ _))
  | linked => exact .inr (scope_linked hb)
  | typedefAdded allowed own =>
    exact .inr (scope_modifyScope (fun _ _ => .typedefAdded allowed own) hb)
  | operationAdded taken =>
    refine .inr (scope_modifyScope (fun a hs => ?_) hb)
    rw [← hs]
    exact .operationAdded taken
  | constantAdded => exact .inr (scope_modifyScope (fun _ _ => .constantAdded _ rfl) hb)
  | attributeAdded => exact .inr (scope_modifyScope (fun _ _ => .attributeAdded _) hb)
  | parentAdded _ isRecord other apart =>
    exact .inr (scope_modifyScope (fun _ hs => .parentAdded (hs ▸ other) isRecord (hs ▸ apart)) hb)
  | usedAdded known => exact .inr (scope_modifyScope (fun _ _ => .usedAdded known) hb)
  | consulted => exact .inr ⟨b, hb, .refl⟩

/-- What every new scope has and every write to its members keeps, all scopes have. -/
theorem Change.forall_scope {P : TypeId → Scope → Prop} (h : Change p m m')
    (new : ∀ s, P s {})
    (step : ∀ s a b, P s a → ScopeStep p m s a b → P s b)
    (hP : ∀ s a, m.scope? s = some a → P s a) : ∀ s b, m'.scope? s = some b → P s b := by
  intro s b hb
  obtain ⟨-, rfl⟩ | ⟨a, ha, hab⟩ := h.scope_steps hb
  · exact new s
  · clear hb
    induction hab with
    | refl => exact hP s a ha
    | tail _ hstep ih => exact step s _ _ ih hstep

end Model

end ApiModel
