import ApiModel.Proofs.Flattening
import ApiModel.Proofs.Histories
import ApiModel.Proofs.Mangling
import ApiModel.Proofs.Paths
import Mathlib.Data.List.Perm.Subperm

/-!
Export names of the operations in one scope. A clash is resolved when the later operation is added,
by an alias; afterwards the names change only with the path of the scope. An export name of its own
does not follow the path, so the path can still bring the other one's name to it.
-/

namespace ApiModel

open Relation

namespace Entity

theorem exportName_eq {e : Entity} (hc : e.exportCache = none) (libraryPrefix : String) :
    e.exportName libraryPrefix = e.exportOverride.getD
      (ExportName.mangle libraryPrefix (Path.qualify e.scopePath (e.aliasName.getD e.name))) := by
  unfold exportName freshExportName
  rw [hc]
  cases e.exportOverride with
  | some text => rfl
  | none => cases e.aliasName <;> rfl

structure GivesAlias (setAlias : Entity → String → Entity) : Prop where
  aliasName : ∀ e text, text ≠ "" → (setAlias e text).aliasName = some text
  exportOverride : ∀ e text, (setAlias e text).exportOverride = e.exportOverride
  exportCache : ∀ e text, text ≠ "" → (setAlias e text).exportCache = none
  scopePath : ∀ e text, (setAlias e text).scopePath = e.scopePath

theorem givesAlias_setAlias : GivesAlias setAlias := by
  constructor <;> intro e text <;> unfold setAlias <;> split <;> simp_all [touch]

theorem givesAlias_setAutoAlias : GivesAlias setAutoAlias :=
  ⟨fun _ _ _ => rfl, fun _ _ => rfl, fun _ _ _ => rfl, fun _ _ => rfl⟩

theorem GivesAlias.exportName {setAlias : Entity → String → Entity} (h : GivesAlias setAlias)
    {e : Entity} (he : e.exportOverride = none) {text : String} (ht : text ≠ "")
    (libraryPrefix : String) : (setAlias e text).exportName libraryPrefix =
      ExportName.mangle libraryPrefix (Path.qualify e.scopePath text) := by
  simp only [Entity.exportName, freshExportName, h.exportOverride, he, h.exportCache e text ht,
    h.aliasName e text ht, h.scopePath]

end Entity

namespace OperationTable

variable {t t' t'' : OperationTable} {libraryPrefix stem : String} {op : Operation}
  {setAlias : Entity → String → Entity}

theorem append_toString_ne_empty (stem : String) (n : Nat) : stem ++ toString n ≠ "" := by
  intro h
  have hlist := congrArg String.toList h
  rw [String.toList_append] at hlist
  exact (ExportName.digits_toString n).2 (List.append_eq_nil_iff.mp hlist).2

/-- The trials end with a free name, or the names of all trials are taken. -/
theorem aliasUntilFree_cases (hset : Entity.GivesAlias setAlias)
    (ho : op.entity.exportOverride = none) (trials n : Nat) :
    t.exportTaken libraryPrefix
      ((t.aliasUntilFree libraryPrefix stem setAlias trials n op).exportName libraryPrefix) =
        false ∨
      ∀ i < trials, t.exportTaken libraryPrefix (ExportName.mangle libraryPrefix
        (Path.qualify op.entity.scopePath (stem ++ toString (n + i)))) = true := by
  induction trials generalizing n op with
  | zero => exact .inr fun i hi => absurd hi (Nat.not_lt_zero i)
  | succ trials ih =>
    have hname : (op.mapEntity (setAlias · (stem ++ toString n))).exportName libraryPrefix =
        ExportName.mangle libraryPrefix
          (Path.qualify op.entity.scopePath (stem ++ toString n)) :=
      hset.exportName ho (append_toString_ne_empty stem n) libraryPrefix
    unfold aliasUntilFree
    dsimp only
    split
    · next htaken =>
      have ho' : (op.mapEntity (setAlias · (stem ++ toString n))).entity.exportOverride = none :=
        (hset.exportOverride _ _).trans ho
      have hpath : (op.mapEntity (setAlias · (stem ++ toString n))).entity.scopePath =
          op.entity.scopePath := hset.scopePath _ _
      refine (ih ho' (n + 1)).imp_right fun hall i hi => ?_
      cases i with
      | zero =>
        rw [hname] at htaken
        exact htaken
      | succ i =>
        have hrest := hall i (by omega)
        rw [hpath] at hrest
        rwa [Nat.add_assoc, Nat.add_comm 1 i] at hrest
    · next hfree => exact .inl (by simpa using hfree)

/-- Different numbers make different names, and the table takes no more names than it has
operations. -/
theorem exists_free_number (t : OperationTable) (libraryPrefix path stem : String) (n : Nat) :
    ∃ i < t.size + 1, t.exportTaken libraryPrefix (ExportName.mangle libraryPrefix
      (Path.qualify path (stem ++ toString (n + i)))) = false := by
  by_contra! hall
  let trial (i : Nat) : String := ExportName.mangle libraryPrefix
    (Path.qualify path (stem ++ toString (n + i)))
  have hnodup : ((List.range (t.size + 1)).map trial).Nodup := by
    refine List.nodup_range.map fun i j hij => ?_
    have hnumbers := ExportName.mangle_number_inj hij
    omega
  have hsub : (List.range (t.size + 1)).map trial ⊆
      t.toList.map (·.exportName libraryPrefix) := by
    intro text htext
    obtain ⟨i, hi, rfl⟩ := List.mem_map.mp htext
    have htaken := Bool.eq_true_of_not_eq_false (hall i (List.mem_range.mp hi))
    obtain ⟨op', hop, he⟩ := List.any_eq_true.mp htaken
    exact List.mem_map.mpr ⟨op', hop, of_decide_eq_true he⟩
  have hlength := (hnodup.subperm hsub).length_le
  simp only [List.length_map, List.length_range] at hlength
  exact absurd hlength (Nat.not_succ_le_self _)

/-- One trial more than there are operations is enough. -/
theorem exportTaken_aliasUntilFree (hset : Entity.GivesAlias setAlias)
    (ho : op.entity.exportOverride = none) (n : Nat) :
    t.exportTaken libraryPrefix
      ((t.aliasUntilFree libraryPrefix stem setAlias (t.size + 1) n op).exportName libraryPrefix) =
        false := by
  refine (aliasUntilFree_cases hset ho (t.size + 1) n).resolve_right fun hall => ?_
  obtain ⟨i, hi, hfree⟩ := t.exists_free_number libraryPrefix op.entity.scopePath stem n
  exact absurd (hfree.symm.trans (hall i hi)) nofun

theorem exportTaken_withFreeExportName (op : Operation) (ho : op.entity.exportOverride = none) :
    t.exportTaken libraryPrefix ((t.withFreeExportName libraryPrefix op).exportName libraryPrefix) =
      false := by
  unfold withFreeExportName
  dsimp only
  split
  · split
    · exact exportTaken_aliasUntilFree Entity.givesAlias_setAlias ho _
    · exact exportTaken_aliasUntilFree Entity.givesAlias_setAutoAlias ho _
  · next h => simpa [ho] using h

theorem exportTaken_stored (ho : op.entity.exportOverride = none) :
    t.exportTaken libraryPrefix ((t.stored libraryPrefix op).exportName libraryPrefix) = false :=
  exportTaken_withFreeExportName { op with index := (t.overloads op.name).length } ho

theorem naming_aliasUntilFree (hset : Entity.GivesAlias setAlias)
    (hc : op.entity.exportCache = none) (trials n : Nat) :
    (t.aliasUntilFree libraryPrefix stem setAlias trials n op).entity.exportCache = none ∧
      (t.aliasUntilFree libraryPrefix stem setAlias trials n op).entity.exportOverride =
        op.entity.exportOverride := by
  induction trials generalizing n op with
  | zero => exact ⟨hc, rfl⟩
  | succ trials ih =>
    have hcache : (op.mapEntity (setAlias · (stem ++ toString n))).entity.exportCache = none :=
      hset.exportCache _ _ (append_toString_ne_empty stem n)
    have hoverride : (op.mapEntity (setAlias · (stem ++ toString n))).entity.exportOverride =
        op.entity.exportOverride := hset.exportOverride _ _
    unfold aliasUntilFree
    dsimp only
    split
    · obtain ⟨h, h'⟩ := ih hcache (n + 1)
      exact ⟨h, h'.trans hoverride⟩
    · exact ⟨hcache, hoverride⟩

theorem naming_withFreeExportName (op : Operation) (hc : op.entity.exportCache = none) :
    (t.withFreeExportName libraryPrefix op).entity.exportCache = none ∧
      (t.withFreeExportName libraryPrefix op).entity.exportOverride = op.entity.exportOverride := by
  unfold withFreeExportName
  dsimp only
  split
  · split
    · exact naming_aliasUntilFree Entity.givesAlias_setAlias hc _ _
    · exact naming_aliasUntilFree Entity.givesAlias_setAutoAlias hc _ _
  · exact ⟨hc, rfl⟩

theorem naming_stored (hc : op.entity.exportCache = none) :
    (t.stored libraryPrefix op).entity.exportCache = none ∧
      (t.stored libraryPrefix op).entity.exportOverride = op.entity.exportOverride :=
  naming_withFreeExportName { op with index := (t.overloads op.name).length } hc

end OperationTable

namespace Operation

/-- What the export name is made from, behind the path: the alias, or else the name. -/
def exportStem (op : Operation) : String := op.entity.aliasName.getD op.name

def HasPlainStem (op : Operation) : Prop := (Text.dropBlanks op.exportStem.toList).head? ≠ some ':'

instance (op : Operation) : Decidable op.HasPlainStem := by unfold HasPlainStem; infer_instance

theorem exportName_eq {op : Operation} (hc : op.entity.exportCache = none)
    (libraryPrefix : String) : op.exportName libraryPrefix = op.entity.exportOverride.getD
      (ExportName.mangle libraryPrefix (Path.qualify op.entity.scopePath op.exportStem)) :=
  Entity.exportName_eq hc libraryPrefix

structure SameNaming (a b : Operation) : Prop where
  name : b.name = a.name
  aliasName : b.entity.aliasName = a.entity.aliasName
  exportOverride : b.entity.exportOverride = a.entity.exportOverride

namespace SameNaming

variable {a b c : Operation}

theorem refl (a : Operation) : a.SameNaming a := ⟨rfl, rfl, rfl⟩

theorem trans (h : a.SameNaming b) (h' : b.SameNaming c) : a.SameNaming c where
  name := h'.name.trans h.name
  aliasName := h'.aliasName.trans h.aliasName
  exportOverride := h'.exportOverride.trans h.exportOverride

theorem exportStem_eq (h : a.SameNaming b) : b.exportStem = a.exportStem := by
  rw [exportStem, exportStem, h.name, h.aliasName]

end SameNaming

end Operation

namespace OperationTable

variable {t t' t'' : OperationTable} {libraryPrefix stem : String} {op : Operation}
  {place : String × Nat}

theorem mem_toList_of_place (h : entry? t place = some op) : op ∈ t.toList :=
  mem_toList_of_mem_overloads (List.mem_of_getElem? h)

theorem entry?_map (f : Operation → Operation) (t : OperationTable) (place : String × Nat) :
    entry? (t.map f) place = ( entry? t place).map f := by
  unfold entry?
  rw [overloads_map, List.getElem?_map]

/-- All operations keep their places and their naming; the paths of all of them stay, or become one
and the same. -/
def Carried (t t' : OperationTable) : Prop :=
  ∃ path : Option String, ∀ place op, entry? t place = some op → ∃ op', entry? t' place = some op' ∧
    op.SameNaming op' ∧ op'.entity.scopePath = path.getD op.entity.scopePath

namespace Carried

theorem refl (t : OperationTable) : t.Carried t :=
  ⟨none, fun _ op h => ⟨op, h, .refl op, rfl⟩⟩

theorem trans (h : t.Carried t') (h' : t'.Carried t'') : t.Carried t'' := by
  obtain ⟨path, hmove⟩ := h
  obtain ⟨path', hmove'⟩ := h'
  refine ⟨path'.or path, fun place op hop => ?_⟩
  obtain ⟨op', hop', hsame, hpath⟩ := hmove place op hop
  obtain ⟨op'', hop'', hsame', hpath'⟩ := hmove' place op' hop'
  refine ⟨op'', hop'', hsame.trans hsame', ?_⟩
  rw [hpath', hpath]
  cases path' <;> rfl

theorem setScopePath (t : OperationTable) (path : String) :
    t.Carried (t.map (·.mapEntity (·.setScopePath path))) := by
  refine ⟨some path, fun place op hop =>
    ⟨op.mapEntity (·.setScopePath path), ?_, ⟨rfl, rfl, rfl⟩, rfl⟩⟩
  rw [entry?_map, hop, Option.map_some]

theorem insert (t : OperationTable) (libraryPrefix : String) (op : Operation) :
    t.Carried (t.insert libraryPrefix op) :=
  ⟨none, fun _ op' h => ⟨op', (entry?_push ..).mpr (.inl h), .refl op', rfl⟩⟩

end Carried

end OperationTable

namespace Model

variable {p : Policy} {m m' root : Model} {s scope id : TypeId} {config : Config}

theorem ScopeStep.carried {a b : Scope} (h : ScopeStep p m s a b) :
    a.operations.Carried b.operations := by
  obtain he | ⟨path, he⟩ | ⟨op, -, he⟩ := h.operations_cases
  · rw [he]
    exact .refl _
  · rw [he]
    exact .setScopePath _ _
  · rw [he]
    exact .insert _ _ _

theorem Change.carried (h : Change p m m') {a : Scope} (ha : m.scope? s = some a) :
    ∃ b, m'.scope? s = some b ∧ a.operations.Carried b.operations := by
  have hk := knows_of_scope ha
  have hc : (m'.node s).isContainer = true := by
    rw [(h.sameKind hk).isContainer]
    exact isContainer_iff.mpr ⟨a, ha⟩
  obtain ⟨b, hb⟩ := isContainer_iff.mp hc
  obtain ⟨hnew, -⟩ | ⟨a', ha', hsteps⟩ := h.scope_steps hb
  · exact absurd hk hnew
  · obtain rfl := Option.some.inj (ha.symm.trans ha')
    refine ⟨b, hb, ?_⟩
    clear hb
    induction hsteps with
    | refl => exact .refl _
    | tail _ hstep ih => exact ih.trans hstep.carried

theorem Run.carried (h : Run p m m') {a : Scope} (ha : m.scope? s = some a) :
    ∃ b, m'.scope? s = some b ∧ a.operations.Carried b.operations := by
  induction h with
  | refl => exact ⟨a, ha, .refl _⟩
  | tail _ hc ih =>
    obtain ⟨b, hb, hab⟩ := ih
    obtain ⟨c, hc, hbc⟩ := hc.carried hb
    exact ⟨c, hc, hab.trans hbc⟩

def Unremembered (m : Model) : Prop :=
  ∀ s a, m.scope? s = some a → ∀ op ∈ a.operations.toList, op.entity.exportCache = none

theorem Change.unremembered (h : Change p m m') (hm : m.Unremembered) : m'.Unremembered := by
  refine h.forall_scope (P := fun _ a => ∀ op ∈ a.operations.toList, op.entity.exportCache = none)
    (fun _ op hop => by cases hop) (fun s a b ha hstep op hop => ?_) hm
  obtain he | ⟨path, he⟩ | ⟨added, -, he⟩ := hstep.operations_cases <;> rw [he] at hop
  · exact ha op hop
  · rw [OperationTable.toList_map] at hop
    obtain ⟨op', -, rfl⟩ := List.mem_map.mp hop
    rfl
  · obtain rfl | hop := OperationTable.mem_toList_insert hop
    · exact (OperationTable.naming_stored rfl).1
    · exact ha op hop

def Begun (p : Policy) (m : Model) : Prop :=
  ∃ config root, config.Within p ∧ rootOnly config = .ok root ∧ Run p root m

theorem Begun.invariants (h : Begun p m) : Sound p m ∧ m.Coherent ∧ m.Unremembered := by
  obtain ⟨config, root, -, hroot, hrun⟩ := h
  induction hrun with
  | refl =>
    refine ⟨sound_rootOnly hroot, coherent_rootOnly hroot, fun s a ha op hop => ?_⟩
    rw [scope?_rootOnly hroot ha] at hop
    cases hop
  | tail _ hc ih =>
    obtain ⟨hs, hcoherent, hcache⟩ := ih
    exact ⟨hc.sound hs, hc.coherent hs.isTree hcoherent, hc.unremembered hcache⟩

theorem Begun.tail (h : Begun p m) (hc : Change p m m') : Begun p m' := by
  obtain ⟨config, root, hw, hroot, hrun⟩ := h
  exact ⟨config, root, hw, hroot, hrun.tail hc⟩

/-- The operation that the scope stores at the place. -/
def operation? (m : Model) (s : TypeId) (place : String × Nat) : Option Operation :=
  (m.scope? s).bind fun a => OperationTable.entry? a.operations place

theorem operation?_eq_some_iff {place : String × Nat} {x : Operation} :
    m.operation? s place = some x ↔
      ∃ a, m.scope? s = some a ∧ OperationTable.entry? a.operations place = some x :=
  Option.bind_eq_some_iff

theorem operation?_congr (h : m'.scope? s = m.scope? s) (place : String × Nat) :
    m'.operation? s place = m.operation? s place := by
  rw [operation?, operation?, h]

theorem operation?_modifyScope {f : Scope → Scope} (hf : ∀ a, (f a).operations = a.operations)
    (id s : TypeId) (place : String × Nat) :
    (m.modifyNode id (·.mapScope f)).operation? s place = m.operation? s place := by
  by_cases hs : s = id
  · rw [operation?, operation?, hs, scope?_modifyScope_self, Option.bind_map]
    exact congrArg _ (funext fun a => congrArg (fun t => OperationTable.entry? t place) (hf a))
  · exact operation?_congr (scope?_modifyScope_of_ne _ hs) place

theorem operation?_allocated {node : TypeNode} (hn : node.IsBlank) {place : String × Nat}
    {x : Operation} (h : (m.allocated node).operation? s place = some x) :
    m.operation? s place = some x := by
  by_cases hs : s = m.next
  · obtain ⟨b, hb, hx⟩ := operation?_eq_some_iff.mp h
    rw [hs, scope?, node_allocated_next] at hb
    rw [hn.members b hb] at hx
    cases hx
  · rw [← h]
    exact (operation?_congr (by rw [scope?, node_allocated_of_ne hs, scope?]) place).symm

theorem isSome_operation?_linked (place : String × Nat) :
    ((m.linked scope id).operation? s place).isSome = (m.operation? s place).isSome := by
  let stores (a : Scope) : Bool := Option.isSome <| OperationTable.entry? a.operations place
  have hstores : ∀ path a, stores (a.setMemberPaths path) = stores a := fun path a => by
    simp only [stores, Scope.setMemberPaths, OperationTable.entry?_map, Option.isSome_map]
  have hpaths := ((repathed_refreshPaths id ((m.claimed scope id).entered scope id)).node
    s).map_scope?_eq hstores
  have hsome : ∀ m : Model,
      (m.operation? s place).isSome = ((m.scope? s).map stores).getD false := fun m => by
    rw [operation?]
    cases m.scope? s <;> rfl
  rw [hsome, linked, scope?, hpaths]
  refine (hsome _).symm.trans (congrArg Option.isSome ?_)
  rw [entered, operation?_modifyScope fun a => ?_]
  · exact operation?_congr (scope?_modifyEntity _ _) place
  · unfold Scope.enterType
    split <;> rfl

theorem operation?_withOperation {op x : Operation} {place : String × Nat} :
    (m.withOperation scope op).operation? s place = some x ↔
      m.operation? s place = some x ∨ ∃ a, s = scope ∧ m.scope? s = some a ∧
        place = (op.name, (a.operations.overloads op.name).length) ∧
        x = a.operations.stored m.libraryPrefix (m.ownedOperation scope op) := by
  rw [withOperation]
  by_cases hs : s = scope
  · subst hs
    simp only [operation?_eq_some_iff, scope?_modifyScope_self, Option.map_eq_some_iff]
    constructor
    · rintro ⟨-, ⟨a, ha, rfl⟩, hx⟩
      have hname :=
        (a.operations.sameDeclaration_stored m.libraryPrefix (m.ownedOperation s op)).name
      obtain hx | ⟨rfl, rfl⟩ := (OperationTable.entry?_push ..).mp hx
      · exact .inl ⟨a, ha, hx⟩
      · rw [hname]
        exact .inr ⟨a, trivial, ha, rfl, rfl⟩
    · rintro (⟨a, ha, hx⟩ | ⟨a, -, ha, rfl, rfl⟩)
      · exact ⟨_, ⟨a, ha, rfl⟩, (OperationTable.entry?_push ..).mpr (.inl hx)⟩
      · have hname :=
          (a.operations.sameDeclaration_stored m.libraryPrefix (m.ownedOperation s op)).name
        refine ⟨_, ⟨a, ha, rfl⟩, (OperationTable.entry?_push ..).mpr (.inr ⟨?_, rfl⟩)⟩
        rw [hname]
        rfl
  · rw [operation?_congr (scope?_modifyScope_of_ne _ hs) place]
    simp [hs]

/-- Only adding an operation puts one where there was none. -/
theorem Change.operation_cases (h : Change p m m') {place : String × Nat}
    (hx : (m'.operation? s place).isSome) : (m.operation? s place).isSome ∨
      ∃ op, p.Takes op ∧ m' = m.withOperation s op := by
  obtain ⟨x, hx'⟩ := Option.isSome_iff_exists.mp hx
  have hscope : m'.scope? s = m.scope? s → (m.operation? s place).isSome := fun h =>
    operation?_congr h place ▸ hx
  cases h with
  | declared fresh =>
    exact .inl (Option.isSome_of_eq_some (operation?_allocated fresh.toIsBlank hx'))
  | specialized =>
    refine .inl (Option.isSome_of_eq_some (operation?_allocated ⟨rfl, fun a ha => ?_, rfl⟩ hx'))
    cases ha
    rfl
  | annotated same => exact .inl (hscope (rel_modifyNode .refl same s).scope)
  | released =>
    rw [Model.released, operation?_congr (scope?_modifyEntity _ _), operation?_modifyScope ?_] at hx
    · exact .inl hx
    · exact fun _ => rfl
  | named | stranded => exact .inl (hscope (scope?_modifyEntity _ _))
  | linked => exact .inl (isSome_operation?_linked place ▸ hx)
  | typedefAdded =>
    rw [withTypedef, operation?_modifyScope ?_] at hx
    · exact .inl hx
    · exact fun _ => rfl
  | constantAdded =>
    rw [withConstant, operation?_modifyScope ?_] at hx
    · exact .inl hx
    · exact fun _ => rfl
  | attributeAdded =>
    rw [withAttribute, operation?_modifyScope ?_] at hx
    · exact .inl hx
    · exact fun _ => rfl
  | parentAdded =>
    rw [withParent, operation?_modifyScope ?_] at hx
    · exact .inl hx
    · exact fun _ => rfl
  | usedAdded =>
    rw [withUsed, operation?_modifyScope ?_] at hx
    · exact .inl hx
    · intro a
      unfold Scope.use
      split <;> rfl
  | consulted => exact .inl hx
  | @operationAdded scope op taken =>
    obtain hx | ⟨-, rfl, -⟩ := operation?_withOperation.mp hx'
    · exact .inl (Option.isSome_of_eq_some hx)
    · exact .inr ⟨op, taken, rfl⟩

/-- In a model passed through on the way, the operation that now is at the first place was there
already, and the one at the second place was added. -/
structure AddedAfter (p : Policy) (before m : Model) (s : TypeId) (op : Operation)
    (first second : String × Nat) (x₀ y₀ : Operation) : Prop where
  begun : Begun p before
  taken : p.Takes op
  present : before.operation? s first = some x₀
  absent : before.operation? s second = none
  added : (before.withOperation s op).operation? s second = some y₀
  run : Run p (before.withOperation s op) m

theorem AddedAfter.tail {before : Model} {op x₀ y₀ : Operation} {first second : String × Nat}
    (h : AddedAfter p before m s op first second x₀ y₀) (hc : Change p m m') :
    AddedAfter p before m' s op first second x₀ y₀ :=
  { h with run := h.run.tail hc }

/-- Of two operations in one scope one was there when the other was added. -/
theorem Course.exists_addedAfter {steps : List (Model × Action)} {models : List Model}
    (h : Course p steps models m) {px py : String × Nat} (hne : px ≠ py)
    (hx : (m.operation? s px).isSome) (hy : (m.operation? s py).isSome) :
    ∃ before op x₀ y₀, Passes models m before (before.withOperation s op) ∧
      (AddedAfter p before m s op px py x₀ y₀ ∨ AddedAfter p before m s op py px x₀ y₀) := by
  refine (h.induct (P := fun models m => Begun p m ∧ ((m.operation? s px).isSome →
      (m.operation? s py).isSome → ∃ before op x₀ y₀,
        Passes models m before (before.withOperation s op) ∧
          (AddedAfter p before m s op px py x₀ y₀ ∨ AddedAfter p before m s op py px x₀ y₀)))
    (fun {config root} hw hroot => ⟨⟨config, root, hw, hroot, .refl⟩, fun hx => ?_⟩)
    fun {models m m'} _ ih hc => ⟨ih.1.tail hc, fun hx hy => ?_⟩).2 hx hy
  · obtain ⟨x, hx⟩ := Option.isSome_iff_exists.mp hx
    obtain ⟨a, ha, hx⟩ := operation?_eq_some_iff.mp hx
    rw [scope?_rootOnly hroot ha] at hx
    cases hx
  obtain ⟨hbegun, ih⟩ := ih
  -- the one that is added now stands at a place of its own, so that the other one was there
  have hnow : ∀ {first second op}, p.Takes op → m' = m.withOperation s op →
      second ≠ first → (m'.operation? s first).isSome → m.operation? s second = none →
      (m'.operation? s second).isSome →
      ∃ x₀ y₀, AddedAfter p m m' s op first second x₀ y₀ := by
    rintro first second op htaken rfl hne hfirst habsent hsecond
    obtain ⟨x₀, hfirst⟩ := Option.isSome_iff_exists.mp hfirst
    obtain ⟨y₀, hsecond⟩ := Option.isSome_iff_exists.mp hsecond
    refine ⟨x₀, y₀, hbegun, htaken, ?_, habsent, hsecond, .refl⟩
    obtain hy | ⟨a, -, ha, hplace, -⟩ := operation?_withOperation.mp hsecond
    · exact absurd (habsent.symm.trans hy) nofun
    obtain hx | ⟨a', -, ha', hplace', -⟩ := operation?_withOperation.mp hfirst
    · exact hx
    · obtain rfl := Option.some.inj (ha.symm.trans ha')
      exact absurd (hplace.trans hplace'.symm) hne
  cases hx₀ : m.operation? s px with
  | none =>
    obtain h | ⟨op, htaken, heq⟩ := hc.operation_cases hx
    · exact absurd h (by simp [hx₀])
    · obtain ⟨x₀, y₀, h⟩ := hnow htaken heq hne hy hx₀ hx
      exact ⟨m, op, x₀, y₀, heq ▸ passes_last models m m', .inr h⟩
  | some x =>
    cases hy₀ : m.operation? s py with
    | none =>
      obtain h | ⟨op, htaken, heq⟩ := hc.operation_cases hy
      · exact absurd h (by simp [hy₀])
      · obtain ⟨x₀, y₀, h⟩ := hnow htaken heq hne.symm hx hy₀ hy
        exact ⟨m, op, x₀, y₀, heq ▸ passes_last models m m', .inl h⟩
    | some y =>
      obtain ⟨before, op, x₀, y₀, hpasses, h⟩ := ih (by simp [hx₀]) (by simp [hy₀])
      exact ⟨before, op, x₀, y₀, hpasses.step m', h.imp (·.tail hc) (·.tail hc)⟩

/-- The scope is the root or belongs to another one, and so carries the path that its place gives
it. -/
def Joined (m : Model) (s : TypeId) : Prop := s = .root ∨ m.owner? s ≠ none

instance (m : Model) (s : TypeId) : Decidable (m.Joined s) := by unfold Joined; infer_instance

theorem Run.libraryPrefix_eq (h : Run p m m') : m'.libraryPrefix = m.libraryPrefix := by
  rw [libraryPrefix, h.config_eq, libraryPrefix]

theorem Begun.exportName_eq (h : Begun p m) {place : String × Nat} {x : Operation}
    (hx : m.operation? s place = some x) (libraryPrefix : String) :
    x.exportName libraryPrefix = x.entity.exportOverride.getD
      (ExportName.mangle libraryPrefix (Path.qualify x.entity.scopePath x.exportStem)) := by
  obtain ⟨a, ha, hx⟩ := operation?_eq_some_iff.mp hx
  exact Operation.exportName_eq
    (h.invariants.2.2 s a ha x (OperationTable.mem_toList_of_place hx)) libraryPrefix

theorem Begun.scopePath_eq (h : Begun p m) (hj : m.Joined s) {place : String × Nat} {x : Operation}
    (hx : m.operation? s place = some x) : x.entity.scopePath = m.scopePath s := by
  obtain ⟨a, ha, hx⟩ := operation?_eq_some_iff.mp hx
  refine (h.invariants.2.1.placed s hj a ha).2 x.entity (Scope.mem_entities.mpr (.inl ?_))
  exact ⟨x, OperationTable.mem_toList_of_place hx, rfl⟩

/-- Through a run two operations of a scope keep their naming, and one path if they have one. -/
theorem Run.operations_carried (h : Run p m m') {px py : String × Nat} {x₀ y₀ : Operation}
    (hx : m.operation? s px = some x₀) (hy : m.operation? s py = some y₀) :
    ∃ x y, m'.operation? s px = some x ∧ m'.operation? s py = some y ∧ x₀.SameNaming x ∧
      y₀.SameNaming y ∧
      (x₀.entity.scopePath = y₀.entity.scopePath → x.entity.scopePath = y.entity.scopePath) := by
  obtain ⟨a, ha, hx⟩ := operation?_eq_some_iff.mp hx
  obtain ⟨a', ha', hy⟩ := operation?_eq_some_iff.mp hy
  obtain rfl := Option.some.inj (ha.symm.trans ha')
  obtain ⟨b, hb, path, hcarried⟩ := h.carried ha
  obtain ⟨x, hx, hsameX, hpathX⟩ := hcarried px x₀ hx
  obtain ⟨y, hy, hsameY, hpathY⟩ := hcarried py y₀ hy
  refine ⟨x, y, operation?_eq_some_iff.mpr ⟨b, hb, hx⟩, operation?_eq_some_iff.mpr ⟨b, hb, hy⟩,
    hsameX, hsameY, fun h => ?_⟩
  rw [hpathX, hpathY, h]

namespace AddedAfter

variable {before : Model} {op x₀ y₀ x y : Operation} {first second : String × Nat}

theorem begun_added (h : AddedAfter p before m s op first second x₀ y₀) :
    Begun p (before.withOperation s op) := by
  obtain ⟨config, root, hw, hroot, hrun⟩ := h.begun
  exact ⟨config, root, hw, hroot, hrun.tail (.operationAdded h.taken)⟩

theorem begun_after (h : AddedAfter p before m s op first second x₀ y₀) : Begun p m := by
  obtain ⟨config, root, hw, hroot, hrun⟩ := h.begun_added
  exact ⟨config, root, hw, hroot, hrun.trans h.run⟩

theorem present_added (h : AddedAfter p before m s op first second x₀ y₀) :
    (before.withOperation s op).operation? s first = some x₀ :=
  operation?_withOperation.mpr (.inl h.present)

theorem exists_stored (h : AddedAfter p before m s op first second x₀ y₀) :
    ∃ a, before.scope? s = some a ∧ OperationTable.entry? a.operations first = some x₀ ∧
      y₀ = a.operations.stored before.libraryPrefix (before.ownedOperation s op) := by
  obtain ⟨a, ha, hx⟩ := operation?_eq_some_iff.mp h.present
  obtain hy | ⟨a', -, ha', -, hy⟩ := operation?_withOperation.mp h.added
  · exact absurd (h.absent.symm.trans hy) nofun
  · obtain rfl := Option.some.inj (ha.symm.trans ha')
    exact ⟨a, ha, hx, hy⟩

/-- Without an export name of its own, what is added gets one that is free. -/
theorem exportName_ne (h : AddedAfter p before m s op first second x₀ y₀)
    (ho : y₀.entity.exportOverride = none) :
    x₀.exportName before.libraryPrefix ≠ y₀.exportName before.libraryPrefix := by
  obtain ⟨a, -, hx, rfl⟩ := h.exists_stored
  have hc : (before.ownedOperation s op).entity.exportCache = none := rfl
  rw [(OperationTable.naming_stored hc).2] at ho
  intro heq
  have htaken : a.operations.exportTaken before.libraryPrefix
      (x₀.exportName before.libraryPrefix) = true :=
    List.any_eq_true.mpr ⟨x₀, OperationTable.mem_toList_of_place hx, decide_eq_true rfl⟩
  rw [heq, OperationTable.exportTaken_stored ho] at htaken
  cases htaken

theorem scopePath_eq (h : AddedAfter p before m s op first second x₀ y₀) (hj : before.Joined s) :
    x₀.entity.scopePath = y₀.entity.scopePath := by
  have hsame : (before.withOperation s op).Joined s := by
    rw [Joined, withOperation, owner?, entity_modifyScope]
    exact hj
  rw [h.begun_added.scopePath_eq hsame h.present_added, h.begun_added.scopePath_eq hsame h.added]

end AddedAfter

/-- How far the export names of two operations in one scope are kept apart, the second one added
after the first one. -/
structure KeptApart (before m : Model) (s : TypeId) (x₀ y₀ x y : Operation) : Prop where
  /-- As long as their paths stay, they differ. -/
  unmoved : x.entity.scopePath = x₀.entity.scopePath → y.entity.scopePath = y₀.entity.scopePath →
    x.exportName m.libraryPrefix ≠ y.exportName m.libraryPrefix
  samePath : before.Joined s → x₀.entity.scopePath = y₀.entity.scopePath
  /-- Under a new path they agree only where the first one has the name of the second one for its
  own. -/
  moved : x₀.entity.scopePath = y₀.entity.scopePath →
    ExportName.PlainPath x₀.entity.scopePath → ExportName.PlainPath x.entity.scopePath →
    x.HasPlainStem → y.HasPlainStem →
    (x.exportName m.libraryPrefix = y.exportName m.libraryPrefix ↔
      x.entity.exportOverride = some (y.exportName m.libraryPrefix))

theorem AddedAfter.keptApart {before : Model} {op x₀ y₀ x y : Operation}
    {first second : String × Nat} (h : AddedAfter p before m s op first second x₀ y₀)
    (hx : m.operation? s first = some x) (hy : m.operation? s second = some y)
    (ho : y.entity.exportOverride = none) : KeptApart before m s x₀ y₀ x y := by
  obtain ⟨x', y', hx', hy', hsameX, hsameY, hpaths⟩ :=
    h.run.operations_carried h.present_added h.added
  obtain rfl := Option.some.inj (hx.symm.trans hx')
  obtain rfl := Option.some.inj (hy.symm.trans hy')
  have hne := h.exportName_ne (hsameY.exportOverride.symm.trans ho)
  have hprefix : m.libraryPrefix = before.libraryPrefix := h.run.libraryPrefix_eq
  rw [← hprefix] at hne
  have hnameX := h.begun_after.exportName_eq hx m.libraryPrefix
  have hnameY := h.begun_after.exportName_eq hy m.libraryPrefix
  have hnameX₀ := h.begun_added.exportName_eq h.present_added m.libraryPrefix
  have hnameY₀ := h.begun_added.exportName_eq h.added m.libraryPrefix
  rw [← hsameX.exportOverride, ← hsameX.exportStem_eq] at hnameX₀
  rw [← hsameY.exportOverride, ← hsameY.exportStem_eq] at hnameY₀
  refine ⟨fun hpx hpy => ?_, h.scopePath_eq, fun hpath hplain₀ hplain hx hy => ?_⟩
  · rwa [hnameX, hnameY, hpx, hpy, ← hnameX₀, ← hnameY₀]
  · cases hox : x.entity.exportOverride with
    | some text =>
      rw [hnameX, hox, Option.getD_some, Option.some_inj]
    | none =>
      refine iff_of_false ?_ nofun
      rw [hnameX₀, hnameY₀, hox, ho, ← hpath] at hne
      rw [hnameX, hnameY, hox, ho, ← hpaths hpath]
      -- a path that two names share does not bring them together
      intro heq
      exact hne ((ExportName.mangle_qualify_eq_iff hplain₀ hx hy).mpr
        ((ExportName.mangle_qualify_eq_iff hplain hx hy).mp heq))

/-- On a course through the listed models the second operation was added when the first one was
there, and unless it has an export name of its own, the export names of the two are kept apart. -/
def InOrder (models : List Model) (m : Model) (s : TypeId) (first second : String × Nat)
    (x y : Operation) : Prop :=
  ∃ before op x₀ y₀, Passes models m before (before.withOperation s op) ∧
    before.operation? s first = some x₀ ∧ before.operation? s second = none ∧
    (before.withOperation s op).operation? s second = some y₀ ∧
    (y.entity.exportOverride = none → KeptApart before m s x₀ y₀ x y)

/-- Of two operations in one scope the one added later gets an export name that differs from that of
the other one; afterwards they agree only if the earlier one has an export name of its own, and the
path of the scope has brought the later one to it. -/
theorem History.exportNames_keptApart {steps : List (Model × Action)} (h : History p steps m)
    {px py : String × Nat} {x y : Operation} (hne : px ≠ py) (hx : m.operation? s px = some x)
    (hy : m.operation? s py = some y) :
    (∃ models, Course p steps models m) ∧ ∀ models, Course p steps models m →
      InOrder models m s px py x y ∨ InOrder models m s py px y x := by
  refine ⟨h.exists_course, fun models course => ?_⟩
  obtain ⟨before, op, x₀, y₀, hpasses, h | h⟩ :=
    course.exists_addedAfter hne (Option.isSome_of_eq_some hx) (Option.isSome_of_eq_some hy)
  · exact .inl ⟨before, op, x₀, y₀, hpasses, h.present, h.absent, h.added, h.keptApart hx hy⟩
  · exact .inr ⟨before, op, x₀, y₀, hpasses, h.present, h.absent, h.added, h.keptApart hy hx⟩

def classWith (operations : List Operation) (actions : List Action) : List Action :=
  .addType .root (declaration .classType "" "A") true :: operations.map (.addOperation ⟨1⟩ ·) ++
    actions

theorem admissible_rename (id : TypeId) (m : Model) :
    Action.Admissible .free m (.renameType id "B") := by
  refine ⟨nofun, fun ⟨path, _, _, hn, hparent, _⟩ => ?_⟩
  have hnormal : Name.normalize "B" = .ok "B" := rfl
  obtain rfl : "B" = path := Except.ok.inj (hnormal.symm.trans hn)
  exact hparent (by decide)

theorem admissible_classWith (operations : List Operation) {actions : List Action}
    (h : ∀ action ∈ actions, ∀ m, action.Admissible .free m) :
    ∀ action ∈ classWith operations actions, ∀ m, action.Admissible .free m := by
  refine List.forall_mem_append.mpr ⟨?_, h⟩
  refine List.forall_mem_cons.mpr ⟨fun m => isFresh_declaration nofun nofun, ?_⟩
  rintro action ha m
  obtain ⟨op, -, rfl⟩ := List.mem_map.mp ha
  exact fun h => h.elim

theorem reachable_classWith (operations : List Operation) {actions : List Action}
    (h : ∀ action ∈ actions, ∀ m, action.Admissible .free m) :
    Reachable .free (bare.afterAll (classWith operations actions)) :=
  reachable_bare.afterAll (admissible_classWith operations h)

theorem afterAll_classWith (operations : List Operation) (actions : List Action) :
    bare.afterAll (classWith operations actions) =
      (bare.afterAll (classWith operations [])).afterAll actions := by
  rw [classWith, classWith, List.append_nil, afterAll, List.foldl_append]
  rfl

/-- In a class `A` that is renamed to `B`, the operations `foo` are exported as
`rbind_B_foo` and `rbind_B_foo2`. -/
theorem exportNames_keptApart_of_renamed : ∃ steps m x y, History .free steps m ∧
    m.operation? ⟨1⟩ ("foo", 0) = some x ∧ m.operation? ⟨1⟩ ("foo", 1) = some y ∧
    x.exportName m.libraryPrefix = "rbind_B_foo" ∧ y.exportName m.libraryPrefix = "rbind_B_foo2" ∧
    (∃ models, Course .free steps models m) ∧ ∀ models, Course .free steps models m →
      InOrder models m ⟨1⟩ ("foo", 0) ("foo", 1) x y ∨
        InOrder models m ⟨1⟩ ("foo", 1) ("foo", 0) y x := by
  let actions : List Action := classWith [foo, foo] [.renameType ⟨1⟩ "B"]
  let m := bare.afterAll actions
  have h : History .free (bare.stepsOf actions) m :=
    history_bare.afterAll <| admissible_classWith _ fun action ha m => by
      obtain rfl := List.mem_singleton.mp ha
      exact admissible_rename _ m
  have hx : (m.operation? ⟨1⟩ ("foo", 0)).map (·.exportName m.libraryPrefix) =
      some "rbind_B_foo" := by decide +kernel
  have hy : (m.operation? ⟨1⟩ ("foo", 1)).map (·.exportName m.libraryPrefix) =
      some "rbind_B_foo2" := by decide +kernel
  obtain ⟨x, hx, hnameX⟩ := Option.map_eq_some_iff.mp hx
  obtain ⟨y, hy, hnameY⟩ := Option.map_eq_some_iff.mp hy
  exact ⟨_, m, x, y, h, hx, hy, hnameX, hnameY, h.exportNames_keptApart (by decide) hx hy⟩

/-- An operation `bar` of a class `A` is exported as `rbind_B_foo`. Then `foo` is added, and `A` is
renamed to `B`. -/
theorem exportNames_agree_after_rename : ∃ before m x y, Reachable .free before ∧
    (before.operation? ⟨1⟩ ("bar", 0)).isSome ∧ before.operation? ⟨1⟩ ("foo", 0) = none ∧
    m = before.afterAll [.addOperation ⟨1⟩ foo, .renameType ⟨1⟩ "B"] ∧ Reachable .free m ∧
    m.operation? ⟨1⟩ ("bar", 0) = some x ∧ m.operation? ⟨1⟩ ("foo", 0) = some y ∧
    y.entity.exportOverride = none ∧
    x.exportName m.libraryPrefix = y.exportName m.libraryPrefix := by
  let bar : Operation := { entity := { name := "bar", exportOverride := some "rbind_B_foo" } }
  let actions : List Action := [.addOperation ⟨1⟩ foo, .renameType ⟨1⟩ "B"]
  let m := bare.afterAll (classWith [bar] actions)
  have h : Reachable .free m := by
    refine reachable_classWith _ ?_
    simp only [actions, List.forall_mem_cons, List.not_mem_nil, false_imp_iff, implies_true,
      and_true]
    exact ⟨fun _ h => h.elim, admissible_rename _⟩
  have hnames : (m.operation? ⟨1⟩ ("bar", 0)).map (·.exportName m.libraryPrefix) =
      some "rbind_B_foo" ∧
      (m.operation? ⟨1⟩ ("foo", 0)).map
        (fun y => (y.entity.exportOverride, y.exportName m.libraryPrefix)) =
          some (none, "rbind_B_foo") := by decide +kernel
  obtain ⟨x, hx, hnameX⟩ := Option.map_eq_some_iff.mp hnames.1
  obtain ⟨y, hy, hnameY⟩ := Option.map_eq_some_iff.mp hnames.2
  obtain ⟨hoverride, hnameY⟩ := Prod.mk.inj hnameY
  have hbefore : Reachable .free (bare.afterAll (classWith [bar] [])) :=
    reachable_classWith _ fun _ ha => absurd ha List.not_mem_nil
  exact ⟨_, m, x, y, hbefore, by decide +kernel, by decide +kernel, afterAll_classWith _ _, h, hx,
    hy, hoverride, hnameX.trans hnameY.symm⟩

end Model

end ApiModel
