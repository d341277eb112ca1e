import ApiModel.Model.Create
import ApiModel.Lookup.Accessor
import ApiModel.Proofs.Declaring

/-!
What lookups do to a model. They make specializations and ask the hook, and both run scripts that
may look types up themselves. The limit to the depth of scripts is what the inductions are on.
-/

namespace ApiModel

open Relation

namespace Script

variable {lookupType : TypeId → String → Search → ModelM TypeRef} {m : Model} {scope : TypeId}
  {name : String}

theorem run_lookup {search : Search} {next : Except ModelError TypeRef → Script} :
    (lookup scope name search next).run lookupType m =
      (next ((lookupType scope name search).outcome m)).run lookupType
        ((lookupType scope name search).after m) := by
  rw [run, ModelM.outcome, ModelM.after]
  cases lookupType scope name search m <;> rfl

theorem run_declare {kind : PlainKind} {next : Except ModelError TypeId → Script} :
    (declare scope kind name next).run lookupType m =
      let declared := ModelM.ofExcept (TypeNode.ofName name kind.toTypeKind) >>= Model.addType scope
      (next (declared.outcome m)).run lookupType (declared.after m) := by
  rw [run]
  dsimp only
  rw [ModelM.outcome, ModelM.after]
  cases (ModelM.ofExcept (TypeNode.ofName name kind.toTypeKind) >>= Model.addType scope) m <;> rfl

theorem run_addOperation {op : Operation} {next : Except ModelError Operation → Script} :
    (addOperation scope op next).run lookupType m =
      (next ((Model.addOperation scope op).outcome m)).run lookupType
        ((Model.addOperation scope op).after m) := by
  rw [run, ModelM.outcome, ModelM.after]
  cases Model.addOperation scope op m <;> rfl

end Script

namespace Model

variable {p : Policy} {m : Model} {scope : TypeId}

def Runs (p : Policy) (run : ScriptRunner) : Prop :=
  ∀ script m, script.Within p → Sound p m → Run p m (run script m).2

theorem runs_refuseScript : Runs p refuseScript := fun _ _ _ _ => .refl

theorem runs_script {lookup : TypeId → String → Search → ModelM TypeRef}
    (hl : ∀ scope name search m, Sound p m → Does p m (lookup scope name search) fun _ _ => True) :
    Runs p (Script.run lookup) := by
  intro script
  induction script with
  | done result => exact fun m _ _ => .refl
  | nameOf id next ih => exact fun m hw hs => ih _ m (hw _) hs
  | signatureOf type next ih => exact fun m hw hs => ih _ m (hw _) hs
  | lookup scope name search next ih =>
    intro m hw hs
    have hr := (hl scope name search m hs).run
    rw [Script.run_lookup]
    exact hr.trans (ih _ _ (hw _) (hr.sound hs))
  | declare scope kind name next ih =>
    intro m hw hs
    have hd : Does p m (ModelM.ofExcept (TypeNode.ofName name kind.toTypeKind) >>= addType scope)
        fun id m' => m'.Knows id :=
      .ofExcept_bind fun node hn => does_addTypeWith hs (PlainKind.isFresh_of_ofName hn hw.1)
    rw [Script.run_declare]
    exact hd.run.trans (ih _ _ (hw.2 _) (hd.run.sound hs))
  | addOperation scope op next ih =>
    intro m hw hs
    have hd : Does p m (addOperation scope op) fun _ _ => True := does_addOperation hw.1
    rw [Script.run_addOperation]
    exact hd.run.trans (ih _ _ (hw.2 _) (hd.run.sound hs))
  | installHook label answer next _ ih =>
    intro m hw hs
    have hc : Change p m { m with hook := some ⟨label, answer⟩ } :=
      .consulted (fun h he => Option.some.inj he ▸ hw.1) List.prefix_rfl
    exact .head hc (ih _ hw.2 (hc.sound hs))
  | removeHook next ih =>
    intro m hw hs
    have hc : Change p m { m with hook := none } := .consulted nofun List.prefix_rfl
    exact .head hc (ih _ hw (hc.sound hs))

section Lookup

variable {run : ScriptRunner}

theorem does_consultHook (hrun : Runs p run) (hs : Sound p m) (scope : TypeId) (name : String) :
    Does p m (consultHook run scope name) fun found m' => found = none ∨
      m'.journal ≠ m.journal := by
  unfold consultHook
  refine .get_bind ?_
  split
  · exact .pure (.inl rfl)
  · next hook hhook =>
    set entry : Consultation := ⟨hook.label, m.fullName scope, name⟩
    have hask : Change p m { m with hook := none, journal := m.journal ++ [entry] } :=
      .consulted nofun (List.prefix_append ..)
    have hafter := hrun (hook.answer scope name) _ (hs.hook hook hhook scope name) (hask.sound hs)
    dsimp only
    generalize run (hook.answer scope name) _ = result at hafter
    obtain ⟨answer, after⟩ := result
    have hback : Change p after { after with hook := after.hook.or (some hook) } := by
      refine .consulted (fun h he => ?_) List.prefix_rfl
      cases ho : after.hook with
      | none =>
        obtain rfl : hook = h := by simpa [ho] using he
        exact hs.hook hook hhook
      | some h' =>
        obtain rfl : h' = h := by simpa [ho] using he
        exact (hafter.sound (hask.sound hs)).hook h' ho
    have hlonger : after.journal ≠ m.journal := fun he => by
      have hle := (he ▸ hafter.journal_prefix).length_le
      simp only [List.length_append, List.length_singleton] at hle
      omega
    have hset : Does p m (set { after with hook := after.hook.or (some hook) })
        fun _ m' => m'.journal ≠ m.journal :=
      .of_ok rfl ((ReflTransGen.single hask).trans (hafter.tail hback)) hlonger
    refine hset.bind fun _ m' _ hne => ?_
    cases answer with
    | ok found => exact .pure (.inr hne)
    | error e => exact .pure (.inr hne)

/-- The next node becomes a class that is made from the template and the arguments. -/
theorem does_makeSpecialization (hrun : Runs p run) (hs : Sound p m) {template : TypeId}
    {specializer : Specializer} {arguments : List TypeRef} (hw : specializer.Within p)
    (ht : (m.node template).isTemplate = true)
    (hfree : m.madeSpecialization? template arguments = none) :
    Does p m (makeSpecialization run template specializer arguments) fun id m' =>
      id = m.next ∧ (m'.node id).specialization = some { template, arguments } := by
  unfold makeSpecialization
  refine .get_bind ?_
  set node := TypeNode.specialized (m.specializationName template arguments)
    { template, arguments } with hnode
  have hblank : node.IsBlank := ⟨rfl, fun scope hs => by cases hs; rfl, rfl⟩
  have hmake : Change p m (m.allocated node) := @Change.specialized p m { template, arguments } ht
  refine (does_addType_of_free hs hmake hblank rfl hfree).bind ?_
  rintro _ m' hr ⟨rfl, hm'⟩
  refine .get_bind ?_
  have hmade : (m'.node m.next).specialization = some { template, arguments } ∧
      m'.Knows m.next := by
    rw [hm', (sameKind_linked _ _ _).specialization, node_allocated_next]
    exact ⟨rfl, by simp [Knows, next]⟩
  have hafter := hrun (specializer.fill m.next arguments) m' (hw _ _) (hr.sound hs)
  dsimp only
  generalize run (specializer.fill m.next arguments) m' = result at hafter
  obtain ⟨result, after⟩ := result
  have hset : Does p m' (set after) fun _ m'' => after = m'' := .of_ok rfl hafter rfl
  refine hset.bind ?_
  rintro - _ - rfl
  cases result with
  | ok found => exact .pure ⟨rfl, (hafter.sameKind hmade.2).specialization.trans hmade.1⟩
  | error e => exact (does_detach m.next).bind fun _ _ _ _ => .throw e

theorem does_mapM {α β : Type} {f : α → ModelM β} {xs : List α} (hs : Sound p m)
    (hf : ∀ a ∈ xs, ∀ m, Sound p m → Does p m (f a) fun _ _ => True) :
    Does p m (xs.mapM f) fun _ _ => True := by
  induction xs generalizing m with
  | nil => exact .pure trivial
  | cons a xs ih =>
    rw [List.mapM_cons]
    refine (hf a List.mem_cons_self m hs).bind fun b m' hr _ => ?_
    refine (ih (hr.sound hs) fun c hc => hf c (List.mem_cons_of_mem a hc)).bind ?_
    exact fun _ _ _ _ => .pure trivial

theorem isTemplate_of_findTemplate {name : String} {search : Search} {template : TypeId}
    (h : m.findTemplate scope name search = some template) :
    (m.node template).isTemplate = true := by
  unfold findTemplate at h
  split at h
  · split at h
    · next ht =>
      cases h
      exact ht
    · cases h
  · cases h

variable {lookupArgument : String → ModelM TypeRef}

/-- How a name with template arguments leads to a class. The template and the arguments that it asks
for are found; then the class is there under their written form, or it is made from them. -/
structure Instantiated (m m' : Model) (lookupArgument : String → ModelM TypeRef) (scope : TypeId)
    (base : String) (arguments : List String) (search : Search) (id : TypeId)
    (asked : Specialization) (between : Model) : Prop where
  template : m.findTemplate scope base search = some asked.template
  arguments : arguments.mapM lookupArgument m = .ok asked.arguments between
  result : between.madeSpecialization? asked.template asked.arguments = some id ∧ m' = between ∨
    between.madeSpecialization? asked.template asked.arguments = none ∧ id = between.next ∧
      (m'.node id).specialization = some asked

theorem does_instantiate (hrun : Runs p run) (hs : Sound p m) {base : String}
    {arguments : List String} {search : Search}
    (hl : ∀ text m, Sound p m → Does p m (lookupArgument text) fun _ _ => True) :
    Does p m (instantiate run lookupArgument scope base arguments search) fun found m' =>
      ∀ ty, found = some ty → ∃ id asked between, ty = .raw id ∧
        Instantiated m m' lookupArgument scope base arguments search id asked between ∧
        Run p m between := by
  unfold instantiate
  refine .get_bind ?_
  split
  · exact .pure nofun
  · next template htemplate =>
    refine (does_mapM hs fun text _ => hl text).bind_eq fun resolved m₁ hresolved _ => .get_bind ?_
    have hr := (does_mapM hs fun text _ => hl text).run_of_ok hresolved
    split
    · next made hmade =>
      refine .pure fun ty hty =>
        ⟨made, ⟨template, resolved⟩, m₁, (Option.some.inj hty).symm, ?_, hr⟩
      exact ⟨htemplate, hresolved, .inl ⟨hmade, rfl⟩⟩
    · exact .pure nofun
    · next specializer hfree hsp =>
      have hs' := hr.sound hs
      have ht := hr.isTemplate (isTemplate_of_findTemplate htemplate)
      refine (does_makeSpecialization hrun hs' (hs'.specializer _ _ hsp) ht hfree).bind ?_
      intro id m' _ hid
      refine .pure fun ty hty => ⟨id, ⟨template, resolved⟩, m₁, (Option.some.inj hty).symm, ?_, hr⟩
      exact ⟨htemplate, hresolved, .inr ⟨hfree, hid⟩⟩

theorem does_resolveBelow (hrun : Runs p run)
    {lookupArgument : TypeId → String → Search → ModelM TypeRef} (scope : TypeId) (search : Search)
    (hl : ∀ scope text search m, Sound p m →
      Does p m (lookupArgument scope text search) fun _ _ => True)
    (bound : Nat) (name : String) (hs : Sound p m) :
    Does p m (resolveBelow run lookupArgument scope search bound name) fun _ _ => True := by
  induction bound generalizing name m with
  | zero => exact .pure trivial
  | succ bound ih =>
    unfold resolveBelow
    refine .get_bind ?_
    split
    · exact .pure trivial
    · split
      · refine (does_instantiate hrun hs fun text m hs => hl scope text search m hs).mono ?_
        exact fun _ _ _ _ => trivial
      · refine (ih _ hs).bind fun outer m' hr _ => ?_
        split
        · exact .get_bind (.pure trivial)
        · exact .pure trivial
      · exact .pure trivial

theorem does_concludeLookup (hrun : Runs p run) (hs : Sound p m) (scope : TypeId)
    (normal name : String) (markers : List Char) (resolved : Option TypeRef) :
    Does p m (concludeLookup run scope normal name markers resolved) fun ty m' =>
      (∃ found, resolved = some found ∧ ty = TypeQuery.applyMarkers found markers ∧ m' = m) ∨
        m'.journal ≠ m.journal := by
  unfold concludeLookup
  cases resolved with
  | some found =>
    dsimp only
    rw [pure_bind]
    refine .get_bind ?_
    split
    · exact .throw_bind _ _
    · exact .pure (.inl ⟨found, rfl, rfl, rfl⟩)
  | none =>
    refine (does_consultHook hrun hs scope name).bind fun found m' _ hasked => ?_
    cases found with
    | none => exact .get_bind (.throw _)
    | some ty =>
      have hne := hasked.resolve_left (Option.some_ne_none ty)
      refine .get_bind ?_
      split
      · exact .throw_bind _ _
      · exact .pure (.inr hne)

theorem does_lookupTypeBelow (hrun : Runs p run) (bound : Nat) (scope : TypeId) (query : String)
    (search : Search) (hs : Sound p m) :
    Does p m (lookupTypeBelow run bound scope query search) fun _ _ => True := by
  induction bound generalizing scope query search m with
  | zero => exact .get_bind (.throw _)
  | succ bound ih =>
    unfold lookupTypeBelow
    dsimp only
    split
    · exact .throw_bind _ _
    refine .ofExcept_bind fun parts _ => ?_
    have hres := does_resolveBelow hrun scope search
      (fun scope text search m hs => ih scope text search hs) (parts.1.length + 1) parts.1 hs
    refine hres.bind fun resolved m' hr _ => ?_
    refine (does_concludeLookup hrun (hr.sound hs) _ _ _ _ _).mono ?_
    exact fun _ _ _ _ => trivial

end Lookup

theorem does_lookupTypeTo (depth : Nat) (scope : TypeId) (query : String) (search : Search)
    (hs : Sound p m) : Does p m (lookupTypeTo depth scope query search) fun _ _ => True := by
  induction depth generalizing scope query search m with
  | zero => exact does_lookupTypeBelow runs_refuseScript _ scope query search hs
  | succ depth ih =>
    refine does_lookupTypeBelow (runs_script ?_) _ scope query search hs
    exact fun scope name search m hs => ih scope name search hs

theorem does_lookupType (scope : TypeId) (query : String) (search : Search) (hs : Sound p m) :
    Does p m (lookupType scope query search) fun _ _ => True :=
  does_lookupTypeTo scriptDepth scope query search hs

end Model

end ApiModel
