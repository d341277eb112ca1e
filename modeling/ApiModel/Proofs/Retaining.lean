import ApiModel.Proofs.Ancestry
import ApiModel.Proofs.Editing
import ApiModel.Proofs.Flattening

/-!
What scopes hold beside each other. Nothing but the addition of an attribute enters attributes into
a scope, and nothing takes operations out of one, lookups with their scripts and hooks included.
-/

namespace ApiModel

open Relation

theorem OperationTable.mem_overloads_insert_of_mem {t : OperationTable} {name : String}
    {op : Operation} (h : op ∈ t.overloads name) (libraryPrefix : String) (op' : Operation) :
    op ∈ (t.insert libraryPrefix op').overloads name := by
  rw [insert, overloads_push]
  split
  · exact List.mem_append_left _ h
  · exact h

structure Attribute.SameData (a b : Attribute) : Prop where
  name : b.name = a.name
  type : b.type = a.type
  isWritable : b.isWritable = a.isWritable

theorem Attribute.SameData.trans {a b c : Attribute} (h : a.SameData b) (h' : b.SameData c) :
    a.SameData c :=
  ⟨h'.name.trans h.name, h'.type.trans h.type, h'.isWritable.trans h.isWritable⟩

structure Scope.Retains (a b : Scope) : Prop where
  attributes : ∀ y ∈ b.attributes.values, ∃ x ∈ a.attributes.values, x.SameData y
  operations : ∀ {name op}, op ∈ a.operations.overloads name →
    ∃ op' ∈ b.operations.overloads name, op'.parameters = op.parameters

namespace Scope.Retains

variable {a b c : Scope}

theorem of_eq (attributes : b.attributes = a.attributes)
    (operations : b.operations = a.operations) : a.Retains b where
  attributes y hy := ⟨y, attributes ▸ hy, rfl, rfl, rfl⟩
  operations hop := ⟨_, operations ▸ hop, rfl⟩

theorem refl (a : Scope) : a.Retains a := of_eq rfl rfl

theorem trans (h : a.Retains b) (h' : b.Retains c) : a.Retains c where
  attributes z hz := by
    obtain ⟨y, hy, hyz⟩ := h'.attributes z hz
    obtain ⟨x, hx, hxy⟩ := h.attributes y hy
    exact ⟨x, hx, hxy.trans hyz⟩
  operations hop := by
    obtain ⟨op', hop', he⟩ := h.operations hop
    obtain ⟨op'', hop'', he'⟩ := h'.operations hop'
    exact ⟨op'', hop'', he'.trans he⟩

theorem setMemberPaths (path : String) (a : Scope) : a.Retains (a.setMemberPaths path) where
  attributes y hy := by
    rw [Scope.setMemberPaths, OrderedMap.values_mapValues] at hy
    obtain ⟨x, hx, rfl⟩ := List.mem_map.mp hy
    exact ⟨x, hx, rfl, rfl, rfl⟩
  operations hop := by
    rw [Scope.setMemberPaths, OperationTable.overloads_map]
    exact ⟨_, List.mem_map_of_mem hop, rfl⟩

theorem insertOperation (libraryPrefix : String) (op : Operation) (a : Scope) :
    a.Retains { a with operations := a.operations.insert libraryPrefix op } where
  attributes y hy := ⟨y, hy, rfl, rfl, rfl⟩
  operations hop := ⟨_, OperationTable.mem_overloads_insert_of_mem hop _ _, rfl⟩

theorem enterType (entity : Entity) (id : TypeId) (a : Scope) :
    a.Retains (a.enterType entity id) := by
  unfold Scope.enterType
  split <;> exact of_eq rfl rfl

theorem use (id : TypeId) (a : Scope) : a.Retains (a.use id) := by
  unfold Scope.use
  split <;> exact of_eq rfl rfl

end Scope.Retains

namespace Model

variable {α β : Type} {p : Policy} {m m' m'' : Model} {scope id : TypeId} {node : TypeNode}
  {run : ScriptRunner}

/-- No attribute has come into any scope, and no operation has gone from one. -/
structure Retains (m m' : Model) : Prop where
  members : ∀ s, (m.members s).Retains (m'.members s)

namespace Retains

theorem refl (m : Model) : Retains m m := ⟨fun _ => .refl _⟩

theorem trans (h : Retains m m') (h' : Retains m' m'') : Retains m m'' :=
  ⟨fun s => (h.members s).trans (h'.members s)⟩

theorem consulted (hook : Option Hook) (journal : List Consultation) :
    Retains m { m with hook, journal } := ⟨fun _ => .refl _⟩

theorem modifyNode {f : TypeNode → TypeNode}
    (h : ((m.node id).scope?.getD {}).Retains ((f (m.node id)).scope?.getD {})) :
    Retains m (m.modifyNode id f) :=
  ⟨rel_modifyNode (R := fun a b => (a.scope?.getD {}).Retains (b.scope?.getD {}))
    (fun _ => .refl _) h⟩

theorem modifyScope {f : Scope → Scope} (hf : ∀ a : Scope, a.Retains (f a)) :
    Retains m (m.modifyNode id (·.mapScope f)) := by
  refine modifyNode ?_
  rw [TypeNode.scope?_mapScope]
  cases (m.node id).scope? with
  | none => exact .refl _
  | some a => exact hf a

theorem modifyEntity (f : Entity → Entity) : Retains m (m.modifyNode id (·.mapEntity f)) :=
  modifyNode (.refl _)

theorem annotated {f : TypeNode → TypeNode} (h : (f (m.node id)).scope? = (m.node id).scope?) :
    Retains m (m.modifyNode id f) := modifyNode (h ▸ .refl _)

theorem allocated (hn : node.IsBlank) : Retains m (m.allocated node) :=
  ⟨fun s => members_allocated_of_isBlank hn s ▸ .refl _⟩

theorem repathed (h : m.Repathed m') : Retains m m' := by
  have hnode : ∀ {a b : TypeNode}, a.Repathed b →
      (a.scope?.getD {}).Retains (b.scope?.getD {}) := by
    intro a b hab
    induction hab with
    | refl => exact .refl _
    | own path _ ih => exact ih
    | @members b path _ ih =>
      rw [TypeNode.scope?_mapScope]
      cases hb : b.scope? with
      | none => rwa [hb] at ih
      | some members =>
        rw [hb] at ih
        exact ih.trans (.setMemberPaths path members)
  exact ⟨fun s => hnode (h.node s)⟩

theorem coversEdits : CoversEdits TypeNode.IsBlank Retains where
  refl := refl
  trans := trans
  declared hn := (PlainKind.isSimple_of_ofName hn).toIsBlank
  template := TypeNode.isBlank_of_template
  exported text hn := hn.exported text
  specialized _ _ _ := (TypeNode.isSimple_specialized _ _).toIsBlank
  ownerWritten _ _ _ _ := modifyEntity _
  entered _ _ id := modifyScope fun a => .enterType _ id a
  removed _ _ _ _ := modifyScope fun _ => .of_eq rfl rfl
  repathed := repathed
  allocated _ _ := allocated
  adopted _ _ _ _ := annotated (TypeNode.Annotated.adopt (p := .free) (fun _ _ => nofun) _).scope
  operationAdded _ _ _ := modifyScope fun a => .insertOperation _ _ a
  annotated h := annotated h.scope
  typedefAdded _ _ _ _ := modifyScope fun _ => .of_eq rfl rfl
  constantAdded _ _ _ := modifyScope fun _ => .of_eq rfl rfl
  usedAdded _ _ used := modifyScope fun a => .use used a
  consulted _ := consulted

theorem bind {x : ModelM α} {f : α → ModelM β} (hx : Retains m (x.after m))
    (hf : ∀ a m', x m = .ok a m' → Retains m' ((f a).after m')) :
    Retains m ((x >>= f).after m) := coversEdits.bind hx hf

end Retains

theorem retains_action {action : Action} (ha : action.Admissible p m)
    (hadds : ∀ scope a, action ≠ .addAttribute scope a) : Retains m (action.run.after m) :=
  Retains.coversEdits.action ha (isBlank_of_admissible ha)
    (fun scope a he => absurd he (hadds scope a))
    (fun _ _ _ _ => .modifyScope fun _ => .of_eq rfl rfl) fun _ _ _ _ _ _ => .modifyEntity _

end Model

end ApiModel
