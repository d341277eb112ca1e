import ApiModel.Proofs.Parents
import ApiModel.Proofs.PathParts

/-!
The names of types. A declaration gives a type the last part of the path that the user writes, and
so does a later renaming; the only other names are those of classes that templates make, and these
have brackets. So whatever users do, and whatever scripts and hooks do for them, a separator divides
no name of a type that has no brackets.
-/

namespace ApiModel

/-- There are brackets in the name, or no separator divides it. -/
def Name.IsUndivided (name : String) : Prop :=
  '<' ∈ name.toList ∨ Path.splitFirst? name = none

theorem Name.isUndivided_baseName (path : String) : IsUndivided (Path.baseName path) :=
  .inr (Path.splitFirst?_eq_none
    (Path.cutLast_of_mem_components (Path.baseName_mem_components path)))

theorem Entity.isUndivided_of_ofName {text : String} {entity : Entity}
    (h : ofName text = .ok entity) : Name.IsUndivided entity.name := by
  obtain ⟨path, -, rfl⟩ := ofName_eq_ok h
  exact Name.isUndivided_baseName path

theorem TypeNode.isUndivided_of_ofName {name : String} {kind : TypeKind} {node : TypeNode}
    (h : ofName name kind = .ok node) : Name.IsUndivided node.name := by
  obtain ⟨entity, he, rfl⟩ := ofName_eq_ok h
  exact Entity.isUndivided_of_ofName he

def TypeNode.IsDeclared (node : TypeNode) : Prop :=
  ∃ text entity, Entity.ofName text = .ok entity ∧ node.name = entity.name

/-- If the operation declares a type, the type has a name as declarations give it. -/
def Action.DeclaresName : Action → Prop
  | addType _ node _ => node.IsDeclared
  | _ => True

namespace Model

variable {p : Policy} {m m' m'' : Model} {id : TypeId} {steps : List (Model × Action)}

def TypesUndivided (m : Model) : Prop := ∀ id, Name.IsUndivided (m.node id).name

structure KeepsUndivided (m m' : Model) : Prop where
  keeps : m.TypesUndivided → m'.TypesUndivided

namespace KeepsUndivided

theorem modifyNode {f : TypeNode → TypeNode}
    (h : Name.IsUndivided (m.node id).name → Name.IsUndivided (f (m.node id)).name) :
    KeepsUndivided m (m.modifyNode id f) where
  keeps hm j := rel_modifyNode
    (R := fun a b => Name.IsUndivided a.name → Name.IsUndivided b.name) (fun _ ha => ha) h j (hm j)

theorem modifyScope (f : Scope → Scope) : KeepsUndivided m (m.modifyNode id (·.mapScope f)) :=
  modifyNode fun h => by rwa [TypeNode.name_mapScope]

theorem allocated {node : TypeNode} (hn : Name.IsUndivided node.name) :
    KeepsUndivided m (m.allocated node) where
  keeps hm j := by
    by_cases hj : j = m.next
    · rwa [hj, node_allocated_next]
    · rw [node_allocated_of_ne hj]
      exact hm j

theorem annotated {f : TypeNode → TypeNode} (h : (m.node id).Annotated .free (f (m.node id))) :
    KeepsUndivided m (m.modifyNode id f) := modifyNode fun hname => by rwa [h.name]

theorem coversEdits : CoversEdits (fun node => Name.IsUndivided node.name) KeepsUndivided where
  refl _ := ⟨fun h => h⟩
  trans h h' := ⟨fun hm => h'.keeps (h.keeps hm)⟩
  declared := TypeNode.isUndivided_of_ofName
  template := TypeNode.isUndivided_of_ofName
  exported _ hn := hn
  specialized _ _ _ := .inl (by simp [TypeNode.name, TypeNode.specialized, specializationName])
  ownerWritten _ _ _ _ := modifyNode fun h => h
  entered _ _ _ := modifyScope _
  removed _ _ _ _ := modifyScope _
  repathed h := ⟨fun hm id => by rw [(h.node id).sameShape.name]; exact hm id⟩
  allocated _ _ := allocated
  adopted _ _ _ _ := annotated (.adopt (p := .free) (fun _ _ => nofun) _)
  operationAdded _ _ _ := modifyScope _
  annotated := annotated
  typedefAdded _ _ _ _ := modifyScope _
  constantAdded _ _ _ := modifyScope _
  usedAdded _ _ _ := modifyScope _
  consulted _ _ _ := ⟨fun hm => hm⟩

theorem action {action : Action} (ha : action.Admissible p m) (hd : action.DeclaresName) :
    KeepsUndivided m (action.run.after m) := by
  refine coversEdits.action ha (fun scope node checkExists he => ?_)
    (fun _ _ _ _ _ => modifyScope _) (fun _ _ _ _ => modifyScope _)
    fun _ _ _ _ path _ => modifyNode fun _ => Name.isUndivided_baseName path
  subst he
  obtain ⟨text, entity, he, hname⟩ := hd
  rw [hname]
  exact Entity.isUndivided_of_ofName he

end KeepsUndivided

theorem History.typesUndivided (h : History p steps m)
    (hd : ∀ step ∈ steps, step.2.DeclaresName) : m.TypesUndivided := by
  induction h with
  | created within new =>
    obtain ⟨root, hroot, hkeeps⟩ := KeepsUndivided.coversEdits.create new
    refine hkeeps.keeps fun id => ?_
    obtain ⟨-, entity, he, hn⟩ | ⟨-, hn⟩ := node_rootOnly hroot id
    · rw [hn]
      exact Entity.isUndivided_of_ofName he
    · rw [hn]
      exact .inr rfl
  | @step steps m before action admissible ih =>
    have hbefore := ih fun step hstep => hd step (List.mem_append_left _ hstep)
    exact (KeepsUndivided.action admissible (hd (m, action) (by simp))).keeps hbefore

end Model

end ApiModel
