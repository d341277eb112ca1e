import ApiModel.Proofs.Growing
import ApiModel.Proofs.Namespaces

/-!
What holds between models before and behind single writes holds before and behind whole programs
that declare types and add operations, whether they succeed or fail.
-/

namespace ApiModel

namespace Model

variable {α β : Type} {N : TypeNode → Prop} {R : Model → Model → Prop} {m m' : Model}
  {node : TypeNode}

/-- The relation holds between the models before and behind each write that puts a node in `N` into
a scope. Such are the namespaces that are missing on a path. -/
structure CoversPlacing (N : TypeNode → Prop) (R : Model → Model → Prop) : Prop where
  refl : ∀ m, R m m
  trans : ∀ {m m' m''}, R m m' → R m' m'' → R m m''
  namespaceMade : ∀ {part path : String} {node : TypeNode}, Name.IsNormal path →
    part ∈ Path.components path → part ≠ "" →
      TypeNode.ofName part PlainKind.namespaceType.toTypeKind = .ok node → N node
  ownerWritten : ∀ m id owner path, R m (m.modifyNode id (·.mapEntity (·.setOwner owner path)))
  entered : ∀ m scope id, R m (m.entered scope id)
  removed : ∀ m owner name id, R m (m.modifyNode owner (·.mapScope (·.removeType name id)))
  repathed : ∀ {m m'}, m.Repathed m' → R m m'
  allocated : ∀ m {node}, N node → R m (m.allocated node)
  adopted : ∀ m id {node}, N node → R m (m.modifyNode id (·.adopt node))

/-- It also holds there for each write that adds an operation, and all nodes that are declared are
in `N`. -/
structure CoversWrites (N : TypeNode → Prop) (R : Model → Model → Prop) : Prop extends
    CoversPlacing N R where
  declared : ∀ {kind : PlainKind} {name : String} {node : TypeNode},
    TypeNode.ofName name kind.toTypeKind = .ok node → N node
  operationAdded : ∀ m scope op, R m (m.withOperation scope op)
  namespaceMade := fun _ _ _ hn => declared hn

namespace CoversPlacing

theorem bind (h : CoversPlacing N R) {x : ModelM α} {f : α → ModelM β} (hx : R m (x.after m))
    (hf : ∀ a m', x m = .ok a m' → R m' ((f a).after m')) : R m ((x >>= f).after m) :=
  ModelM.rel_after_bind h.trans hx hf

theorem discard (h : CoversPlacing N R) {x : ModelM α} (hx : R m (x.after m)) :
    R m ((do let _ ← x : ModelM Unit).after m) := h.bind hx fun _ m' _ => h.refl m'

theorem get_bind {f : Model → ModelM β} (h : R m ((f m).after m)) :
    R m ((get >>= f).after m) := h

theorem ofExcept_bind (h : CoversPlacing N R) {e : Except ModelError α} {f : α → ModelM β}
    (hf : ∀ a, e = .ok a → R m ((f a).after m)) :
    R m ((ModelM.ofExcept e >>= f).after m) := by
  cases e with
  | ok a => exact hf a rfl
  | error failure => exact h.refl m

theorem requireContainer (h : CoversPlacing N R) (id : TypeId) (what : String) (m : Model) :
    R m ((Model.requireContainer id what).after m) := by
  unfold Model.requireContainer
  apply get_bind
  split <;> exact h.refl m

theorem attach (h : CoversPlacing N R) (scope id : TypeId) (m : Model) :
    R m ((Model.attach scope id).after m) := by
  have hclaimed : R m (m.claimed scope id) := h.ownerWritten m id _ _
  cases hc : (m.node scope).isContainer with
  | true =>
    rw [ModelM.after, attach_eq hc]
    have hentered := h.trans hclaimed (h.entered _ scope id)
    exact h.trans hentered (h.repathed (repathed_refreshPaths id _))
  | false =>
    obtain ⟨failure, he⟩ := attach_eq_error id hc
    rw [ModelM.after, he]
    exact hclaimed

theorem detach (h : CoversPlacing N R) (id : TypeId) (m : Model) :
    R m ((Model.detach id).after m) := by
  by_cases hm : ∃ owner, m.Member id owner
  · obtain ⟨owner, hm⟩ := hm
    rw [ModelM.after, detach_eq hm.1 hm.2]
    exact h.trans (h.removed m owner _ id) (h.ownerWritten _ id _ _)
  · obtain ⟨failure, he⟩ := detach_eq_error fun owner ho => hm ⟨owner, ho⟩
    rw [ModelM.after, he]
    exact h.refl m

theorem allocate_attach (h : CoversPlacing N R) (hn : N node) (scope : TypeId) (m : Model) :
    R m ((do let id ← allocate node; Model.attach scope id; return id).after m) :=
  h.bind (h.allocated m hn) fun id m' _ => h.bind (h.attach scope id m') fun _ m'' _ => h.refl m''

theorem enterNamespace (h : CoversPlacing N R) {path name : String} (hpath : Name.IsNormal path)
    (hname : name ∈ Path.components path) (scope : TypeId) (m : Model) :
    R m ((Model.enterNamespace scope name).after m) := by
  unfold Model.enterNamespace
  split
  · exact h.refl m
  next hne =>
  apply get_bind
  split
  · exact h.bind (h.requireContainer ..) fun _ m' _ => h.refl m'
  · exact h.ofExcept_bind fun node hn =>
      h.allocate_attach (h.namespaceMade hpath hname hne hn) scope m

theorem addNamespace (h : CoversPlacing N R) (scope : TypeId) (path : String) (m : Model) :
    R m ((Model.addNamespace scope path).after m) := by
  refine h.ofExcept_bind fun path' hpath => ?_
  have hnormal := Name.isNormal_of_normalize hpath
  suffices hwalk : ∀ parts ⊆ Path.components path', ∀ scope m,
      R m ((parts.foldlM Model.enterNamespace scope).after m) from
    hwalk _ (List.Subset.refl _) scope m
  intro parts hparts
  induction parts with
  | nil => exact fun _ m => h.refl m
  | cons part parts ih =>
    intro scope m
    obtain ⟨hpart, hrest⟩ := List.cons_subset.mp hparts
    rw [List.foldlM_cons]
    exact h.bind (h.enterNamespace hnormal hpart scope m) fun id m' _ => ih hrest id m'

theorem declarationScope (h : CoversPlacing N R) (scope : TypeId) (path : String) (m : Model) :
    R m ((Model.declarationScope scope path).after m) := by
  unfold Model.declarationScope
  apply get_bind
  split
  · exact h.refl m
  · exact h.addNamespace scope path m

theorem enterType (h : CoversPlacing N R) (hn : N node) (scope : TypeId) (checkExists : Bool)
    (m : Model) : R m ((Model.enterType scope node checkExists).after m) := by
  unfold Model.enterType
  apply get_bind
  split
  · next existing _ =>
    split
    · exact h.refl m
    split
    · exact h.adopted m existing hn
    split
    · exact h.refl m
    · exact h.bind (h.detach existing m) fun _ m' _ => h.allocate_attach hn scope m'
  · exact h.allocate_attach hn scope m

theorem addTypeWith (h : CoversPlacing N R) (hn : N node) (scope : TypeId) (checkExists : Bool)
    (m : Model) : R m ((Model.addTypeWith scope node checkExists).after m) :=
  h.bind (h.requireContainer ..) fun _ m₁ _ =>
    h.bind (h.declarationScope scope _ m₁) fun target m₂ _ => h.enterType hn target checkExists m₂

theorem declare (h : CoversPlacing N R) {kind : PlainKind} {name : String}
    (hn : ∀ node, TypeNode.ofName name kind.toTypeKind = .ok node → N node) (scope : TypeId)
    (m : Model) : R m ((ModelM.ofExcept (TypeNode.ofName name kind.toTypeKind) >>=
      Model.addType scope).after m) :=
  h.ofExcept_bind fun node he => h.addTypeWith (hn node he) scope true m

theorem memberScope (h : CoversPlacing N R) (scope : TypeId) (path : String)
    (accept : TypeNode → Bool) (m : Model) :
    R m ((Model.memberScope scope path accept).after m) := by
  unfold Model.memberScope
  apply get_bind
  split
  · exact h.refl m
  · split <;> exact h.refl m

theorem addOperation (h : CoversPlacing N R) {op : Operation}
    (hwrite : ∀ m scope, R m (m.withOperation scope op)) (scope : TypeId) (m : Model) :
    R m ((Model.addOperation scope op).after m) :=
  h.bind (h.requireContainer ..) fun _ m₁ _ =>
    h.bind (h.memberScope scope _ _ m₁) fun target m₂ _ => hwrite m₂ target

end CoversPlacing

namespace CoversWrites

theorem declare (h : CoversWrites N R) (scope : TypeId) (kind : PlainKind) (name : String)
    (m : Model) : R m ((ModelM.ofExcept (TypeNode.ofName name kind.toTypeKind) >>=
      Model.addType scope).after m) :=
  h.toCoversPlacing.declare (fun _ hn => h.declared hn) scope m

theorem addOperation (h : CoversWrites N R) (scope : TypeId) (op : Operation) (m : Model) :
    R m ((Model.addOperation scope op).after m) :=
  h.toCoversPlacing.addOperation (fun m scope => h.operationAdded m scope op) scope m

end CoversWrites

end Model

end ApiModel
