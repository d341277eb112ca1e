import ApiModel.Proofs.Growing
import ApiModel.Proofs.ReadOnly

/-!
What lookups leave alone: they keep the nodes that were there, whatever scripts they run. What a
lookup needs to be repeated is gathered here too, the parts that a successful one consists of.
-/

namespace ApiModel

open Relation

namespace Model

variable {tame : Prop} {n : Nat} {m m' : Model} {scope : TypeId} {name : String}
  {run : ScriptRunner}

def KeepsScripts (tame : Prop) (run : ScriptRunner) : Prop :=
  ∀ n script m, (tame → script.Tame) → Ready tame n m → Grows tame n m (run script m).2

theorem keeps_refuseScript : KeepsScripts tame refuseScript := fun _ _ m _ _ => .refl m

theorem keeps_script {lookup : TypeId → String → Search → ModelM TypeRef}
    (hl : ∀ n scope name search m, Ready tame n m →
      Keeps tame n m (lookup scope name search) fun _ _ => True) :
    KeepsScripts tame (Script.run lookup) := by
  intro n script
  induction script with
  | done result => exact fun m _ _ => .refl m
  | nameOf id next ih => exact fun m ht hr => ih _ m (fun h => ht h _) hr
  | signatureOf type next ih => exact fun m ht hr => ih _ m (fun h => ht h _) hr
  | lookup scope name search next ih =>
    intro m ht hr
    have he := (hl n scope name search m hr).grows
    rw [Script.run_lookup]
    exact he.trans (ih _ _ (fun h => ht h _) (hr.grows he))
  | declare scope kind name next ih =>
    intro m ht hr
    have hd : Keeps tame n m
        (ModelM.ofExcept (TypeNode.ofName name kind.toTypeKind) >>= addType scope)
        fun _ _ => True :=
      .ofExcept_bind fun node hn =>
        keeps_addType hr (PlainKind.isSimple_of_ofName hn) fun h => (ht h).elim
    rw [Script.run_declare]
    exact hd.grows.trans (ih _ _ (fun h => (ht h).elim) (hr.grows hd.grows))
  | addOperation scope op next ih =>
    intro m ht hr
    have hd : Keeps tame n m (addOperation scope op) fun _ _ => True := keeps_addOperation
    rw [Script.run_addOperation]
    exact hd.grows.trans (ih _ _ (fun h => ht h _) (hr.grows hd.grows))
  | installHook label answer next _ ih =>
    intro m ht hr
    have he : Grows tame n m { m with hook := some ⟨label, answer⟩ } :=
      .consulted (fun h => ht h) List.prefix_rfl
    exact he.trans (ih _ (fun h => (ht h).elim) (hr.grows he))
  | removeHook next ih =>
    intro m ht hr
    have he : Grows tame n m { m with hook := none } :=
      .consulted (fun h => ht h) List.prefix_rfl
    exact he.trans (ih _ (fun h => (ht h).elim) (hr.grows he))

section Lookup

theorem keeps_consultHook (hrun : KeepsScripts tame run) (hr : Ready tame n m) (scope : TypeId)
    (name : String) : Keeps tame n m (consultHook run scope name) fun _ _ => True := by
  unfold consultHook
  apply Keeps.get_bind
  split
  · exact .pure trivial
  · next hook hhook =>
    have hw : ¬ tame := fun ht => absurd ((hr.tame ht).hook.symm.trans hhook) nofun
    set entry : Consultation := ⟨hook.label, m.fullName scope, name⟩
    have hask : Grows tame n m { m with hook := none, journal := m.journal ++ [entry] } :=
      .consulted hw (List.prefix_append ..)
    have hafter := hrun n (hook.answer scope name) _ (fun ht => absurd ht hw) (hr.grows hask)
    dsimp only
    generalize run (hook.answer scope name) _ = result at hafter
    obtain ⟨answer, after⟩ := result
    have hback : Grows tame n after { after with hook := after.hook.or (some hook) } :=
      .consulted hw List.prefix_rfl
    have hset : Keeps tame n m (set { after with hook := after.hook.or (some hook) })
        fun _ _ => True := .of_ok rfl ((hask.trans hafter).trans hback) trivial
    refine hset.bind fun _ m' _ _ => ?_
    cases answer with
    | ok found => exact .pure trivial
    | error e => exact .pure trivial

theorem mem_specializationName (m : Model) (template : TypeId) (arguments : List TypeRef) :
    '<' ∈ (m.specializationName template arguments).toList := by
  simp [specializationName]

theorem keeps_makeSpecialization (hrun : KeepsScripts tame run) (hr : Ready tame n m)
    {template : TypeId} {specializer : Specializer} {arguments : List TypeRef}
    (ht : tame → specializer.Tame) (hfree : m.madeSpecialization? template arguments = none) :
    Keeps tame n m (makeSpecialization run template specializer arguments) fun id m' =>
      m'.type? (m.specializationScope template) (m.specializationName template arguments) =
        some id := by
  unfold makeSpecialization
  apply Keeps.get_bind
  set node := TypeNode.specialized (m.specializationName template arguments)
    { template, arguments } with hnode
  have hsimple : node.IsSimple := TypeNode.isSimple_specialized _ _
  have hbracket : '<' ∈ node.name.toList := m.mem_specializationName _ _
  refine (keeps_addType_of_free hr hsimple rfl hfree fun _ => hbracket).bind ?_
  rintro id m₁ he ⟨rfl, hentered⟩
  apply Keeps.get_bind
  have hr₁ := hr.grows he
  -- the script keeps the new class as well
  have hafter := hrun m₁.size (specializer.fill m.next arguments) m₁ (fun h => ht h _ _)
    ⟨le_rfl, hr₁.root, hr₁.tame⟩
  dsimp only
  generalize run (specializer.fill m.next arguments) m₁ = result at hafter
  obtain ⟨result, after⟩ := result
  have hset : Keeps tame n m₁ (set after) fun _ m₂ => after = m₂ :=
    .of_ok rfl (hafter.mono hr₁.size) rfl
  refine hset.bind ?_
  rintro - _ - rfl
  cases result with
  | ok found => exact .pure (hafter.listed hentered.known hentered.listed)
  | error e =>
    have hname : (after.node m.next).name = node.name :=
      (hafter.identity _ hentered.known).name.trans hentered.named
    exact (keeps_deleteType hr.size fun _ => hname ▸ hbracket).bind fun _ _ _ _ => .throw e

theorem keeps_mapM {α β : Type} {f : α → ModelM β} {xs : List α} (hr : Ready tame n m)
    (hf : ∀ a ∈ xs, ∀ m, Ready tame n m → Keeps tame n m (f a) fun _ _ => True) :
    Keeps tame n m (xs.mapM f) fun _ _ => True := by
  induction xs generalizing m with
  | nil => exact .pure trivial
  | cons a xs ih =>
    rw [List.mapM_cons]
    obtain ⟨hfirst, hrest⟩ := List.forall_mem_cons.mp hf
    refine (hfirst m hr).bind fun b m' he _ => ?_
    exact (ih (hr.grows he) hrest).bind fun _ _ _ _ => .pure trivial

variable {lookupArgument : String → ModelM TypeRef}

/-- The class that a name with template arguments leads to is listed under the written form of the
template and the arguments, which are what they were when it was asked for. -/
theorem keeps_instantiate (hrun : KeepsScripts tame run) (hr : Ready tame n m) {base : String}
    {arguments : List String} {search : Search}
    (hl : ∀ text m, Ready tame n m → Keeps tame n m (lookupArgument text) fun _ _ => True) :
    Keeps tame n m (instantiate run lookupArgument scope base arguments search) fun found m' =>
      ∀ ty, found = some ty → ∃ template types between id, ty = .raw id ∧
        m.findTemplate scope base search = some template ∧
        arguments.mapM lookupArgument m = .ok types between ∧
        Grows tame between.size between m' ∧
        m'.type? (between.specializationScope template)
          (between.specializationName template types) = some id := by
  unfold instantiate
  apply Keeps.get_bind
  split
  · exact .pure nofun
  · next template htemplate =>
    have harguments := keeps_mapM hr fun text (_ : text ∈ arguments) => hl text
    refine harguments.bind_eq fun types between htypes _ => ?_
    have hr' := hr.grows (harguments.grows_of_ok htypes)
    apply Keeps.get_bind
    split
    · next id hid =>
      refine .pure fun ty hty => ⟨template, types, between, id, (Option.some.inj hty).symm, ?_⟩
      exact ⟨htemplate, htypes, .refl between, hid⟩
    · exact .pure nofun
    · next specializer hfree hspecializer =>
      have htame : tame → specializer.Tame := fun ht =>
        (hr'.tame ht).specializer _ _ hspecializer
      have hmake := keeps_makeSpecialization hrun ⟨le_rfl, hr'.root, hr'.tame⟩ htame hfree
      have hmake' : Keeps tame n between (makeSpecialization run template specializer types)
          fun id m' => Grows tame between.size between m' ∧
            m'.type? (between.specializationScope template)
              (between.specializationName template types) = some id :=
        ⟨hmake.grows.mono hr'.size, fun h => ⟨hmake.grows_of_ok h, hmake.post h⟩⟩
      refine hmake'.bind fun id m' _ hid => ?_
      refine .pure fun ty hty => ⟨template, types, between, id, (Option.some.inj hty).symm, ?_⟩
      exact ⟨htemplate, htypes, hid.1, hid.2⟩

theorem keeps_resolveBelow (hrun : KeepsScripts tame run)
    {lookupArgument : TypeId → String → Search → ModelM TypeRef} (scope : TypeId) (search : Search)
    (hl : ∀ scope text search m, Ready tame n m →
      Keeps tame n m (lookupArgument scope text search) fun _ _ => True)
    (bound : Nat) (name : String) (hr : Ready tame n m) :
    Keeps tame n m (resolveBelow run lookupArgument scope search bound name) fun _ _ => True := by
  induction bound generalizing name m with
  | zero => exact .pure trivial
  | succ bound ih =>
    unfold resolveBelow
    apply Keeps.get_bind
    split
    · exact .pure trivial
    split
    · refine (keeps_instantiate hrun hr fun text m hr => hl scope text search m hr).mono ?_
      exact fun _ _ _ _ => trivial
    · refine (ih _ hr).bind fun outer m' _ _ => ?_
      split
      · exact .get_bind (.pure trivial)
      · exact .pure trivial
    · exact .pure trivial

theorem keeps_concludeLookup (hrun : KeepsScripts tame run) (hr : Ready tame n m) (scope : TypeId)
    (normal name : String) (markers : List Char) (resolved : Option TypeRef) :
    Keeps tame n m (concludeLookup run scope normal name markers resolved) fun _ _ => True := by
  unfold concludeLookup
  cases resolved with
  | some found =>
    dsimp only
    rw [pure_bind]
    apply Keeps.get_bind
    split
    · exact .throw_bind _ _
    · exact .pure trivial
  | none =>
    refine (keeps_consultHook hrun hr scope name).bind fun found m' _ _ => ?_
    cases found with
    | none => exact .get_bind (.throw _)
    | some ty =>
      apply Keeps.get_bind
      split
      · exact .throw_bind _ _
      · exact .pure trivial

theorem keeps_lookupTypeBelow (hrun : KeepsScripts tame run) (bound : Nat) (scope : TypeId)
    (query : String) (search : Search) (hr : Ready tame n m) :
    Keeps tame n m (lookupTypeBelow run bound scope query search) fun _ _ => True := by
  induction bound generalizing scope query search m with
  | zero => exact .get_bind (.throw _)
  | succ bound ih =>
    unfold lookupTypeBelow
    dsimp only
    split
    · exact .throw_bind _ _
    refine .ofExcept_bind fun parts _ => ?_
    have hresolve := keeps_resolveBelow hrun scope search
      (fun scope text search m hr => ih scope text search hr) (parts.1.length + 1) parts.1 hr
    refine hresolve.bind fun resolved m' he _ => ?_
    exact keeps_concludeLookup hrun (hr.grows he) _ _ _ _ _

end Lookup

theorem keeps_lookupTypeTo (depth : Nat) (scope : TypeId) (query : String) (search : Search)
    (hr : Ready tame n m) : Keeps tame n m (lookupTypeTo depth scope query search)
      fun _ _ => True := by
  induction depth generalizing n scope query search m with
  | zero => exact keeps_lookupTypeBelow keeps_refuseScript _ scope query search hr
  | succ depth ih =>
    refine keeps_lookupTypeBelow (keeps_script ?_) _ scope query search hr
    exact fun n scope name search m hr => ih scope name search hr

theorem keepsScripts_nestedScripts : KeepsScripts tame nestedScripts :=
  keeps_script fun _ scope name search _ hr => keeps_lookupTypeTo _ scope name search hr

theorem keeps_lookupType (scope : TypeId) (query : String) (search : Search)
    (hr : Ready tame n m) : Keeps tame n m (lookupType scope query search) fun _ _ => True :=
  keeps_lookupTypeTo scriptDepth scope query search hr

theorem keeps_resolve (scope : TypeId) (search : Search) (name : String) (hr : Ready tame n m) :
    Keeps tame n m (resolve scope search name) fun _ _ => True :=
  keeps_resolveBelow keepsScripts_nestedScripts scope search
    (fun scope text search _ hr => keeps_lookupType scope text search hr) _ name hr

end Model

namespace StdTypes

theorem tame_proceed {α : Type} {next : α → Script} (h : ∀ a, (next a).Tame)
    (result : Except ModelError α) : (Script.proceed next result).Tame := by
  cases result with
  | ok a => exact h a
  | error e => trivial

theorem tame_builtin {name : String} {next : TypeRef → Script} (h : ∀ ty, (next ty).Tame) :
    (Script.builtin name next).Tame := tame_proceed h

theorem tame_addOperations {scope : TypeId} {next : Script} (hn : next.Tame) :
    (ops : List Operation) → (Script.addOperations scope ops next).Tame
  | [] => hn
  | _ :: ops => tame_proceed fun _ => tame_addOperations hn ops

theorem tame_vector : vector.Tame := by
  rintro id (_ | ⟨value, _ | _⟩)
  · trivial
  · refine tame_builtin fun sizeType => tame_builtin fun void => tame_builtin fun bool =>
      fun valueText className => tame_addOperations ?_ _
    trivial
  · trivial

theorem tame_map : map.Tame := by
  rintro id (_ | ⟨key, _ | ⟨value, _⟩⟩)
  · trivial
  · trivial
  · refine tame_builtin fun sizeType => tame_builtin fun void => tame_builtin fun bool =>
      fun keyText => tame_builtin fun keys => fun className => tame_addOperations ?_ _
    trivial

theorem tame_model {m : Model} (hhook : m.hook = none)
    (hstd : ∀ id specializer, (m.node id).specializer? = some specializer →
      specializer = vector ∨ specializer = map) : m.Tame := by
  refine ⟨hhook, fun id specializer h => ?_⟩
  obtain rfl | rfl := hstd id specializer h
  · exact tame_vector
  · exact tame_map

end StdTypes

end ApiModel
