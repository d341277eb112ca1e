import ApiModel.Proofs.Making
import ApiModel.Proofs.MapKeys

/-!
Lookups that nothing gets in the way of. What gets in the way of a name with template arguments is
a class whose name it ends with. The script of a vector looks up names without brackets only, and
these make nothing; so a vector of a type that is spelled without brackets is the only class that
its lookup makes, and the lookup is idempotent. A map makes the vector of its keys besides.
-/

namespace ApiModel

/-- Whatever it learns, the script looks names without brackets up only. -/
def Script.AsksPlainly : Script → Prop
  | done _ => True
  | nameOf _ next => ∀ name, (next name).AsksPlainly
  | signatureOf _ next => ∀ text, (next text).AsksPlainly
  | lookup _ name _ next => '<' ∉ name.toList ∧ ∀ result, (next result).AsksPlainly
  | declare _ _ _ next => ∀ result, (next result).AsksPlainly
  | addOperation _ _ next => ∀ result, (next result).AsksPlainly
  | installHook _ _ next => next.AsksPlainly
  | removeHook next => next.AsksPlainly

namespace StdTypes

variable {id : TypeId}

theorem asksPlainly_builtin {name : String} {next : TypeRef → Script} (hname : '<' ∉ name.toList)
    (h : ∀ ty, (next ty).AsksPlainly) : (Script.builtin name next).AsksPlainly := by
  refine ⟨hname, fun result => ?_⟩
  cases result with
  | ok ty => exact h ty
  | error failure => trivial

theorem asksPlainly_finish : Script.finish.AsksPlainly := trivial

theorem asksPlainly_addOperations {next : Script} (h : next.AsksPlainly) (ops : List Operation) :
    (Script.addOperations id ops next).AsksPlainly := by
  induction ops with
  | nil => exact h
  | cons op ops ih =>
    intro result
    cases result with
    | ok stored => exact ih
    | error failure => trivial

theorem asksPlainly_vector (arguments : List TypeRef) :
    (vector.fill id arguments).AsksPlainly := by
  rcases arguments with _ | ⟨value, _ | _⟩
  · trivial
  · exact asksPlainly_builtin (by decide) fun sizeType =>
      asksPlainly_builtin (by decide) fun void =>
        asksPlainly_builtin (by decide) fun bool =>
          fun valueText className => asksPlainly_addOperations asksPlainly_finish _
  · trivial

end StdTypes

namespace Model

/-- Only classes get in the way of `Base<A,B>` whose names it ends with. -/
theorem Question.KeptBy.of_names {q : Question} {later : Model} {base : String}
    {arguments : List String} (hm : Bracketed later) (ht : later.IsTree)
    (hform : Template.split? q.name = some (base, arguments)) (hbase : '>' ∉ base.toList)
    (hother : ∀ id, ¬ q.model.Knows id → later.Knows id →
      (later.node id).name.toList <:+ q.name.toList → q.result = .raw id) :
    q.KeptBy True later where
  added id hid hlater := by
    obtain ⟨_, _, hty, hmade, -, hsuffix⟩ := made_of_findPlain hm ht hform hlater
    obtain rfl := TypeRef.raw.inj hty
    exact hother id hid (knows_of_specialization hmade) hsuffix
  passing hmore := absurd (plainFront_of_split? hform hbase) hmore

variable {p : Policy} {run : ScriptRunner} {m m' : Model} {scope template : TypeId}
  {query name base : String} {markers : List Char} {arguments : List String} {search : Search}
  {ty : TypeRef}

theorem concludeLookup_of_hookless (h : m.hook = none) (scope : TypeId) (normal name : String)
    (markers : List Char) (resolved : Option TypeRef) :
    (concludeLookup run scope normal name markers resolved).after m = m := by
  cases resolved with
  | none =>
    have hasked : consultHook run scope name m = .ok none m := by
      simp [consultHook, ModelM.bind_apply, h]
    simp [concludeLookup, ModelM.after, ModelM.bind_apply, hasked]
  | some ty =>
    cases husable : ty.isRaw && (m.node ty.base).isTemplate with
    | false => rw [ModelM.after, concludeLookup_eq_ok husable]
    | true =>
      rw [ModelM.after, concludeLookup]
      simp only [ModelM.bind_apply, ModelM.pure_apply, ModelM.get_apply, husable, if_true,
        ModelM.throw_apply]

theorem lookupTypeWith_of_plain (h : m.hook = none) (hquery : '<' ∉ query.toList) :
    (lookupTypeWith run scope query search).after m = m := by
  rw [lookupTypeWith]
  by_cases hq : Name.normalizeQuery query = ""
  · rw [lookupTypeBelow_of_empty _ hq]
    rfl
  cases hsplit : TypeQuery.split (Name.normalizeQuery query) with
  | error failure =>
    rw [lookupTypeBelow_of_error _ hq hsplit]
    rfl
  | ok parts =>
    obtain ⟨name, markers⟩ := parts
    have hname := no_bracket_of_split hquery hsplit
    have hresolve (bound : Nat) : resolveBelow run (lookupTypeBelow run bound) scope search
        (name.length + 1) name m = .ok (m.findPlain scope name search true) m := by
      rw [resolveBelow, ModelM.bind_apply, ModelM.get_apply]
      dsimp only
      rw [Template.split?_eq_none hname, Path.splitAfterTemplate?_eq_none hname]
      cases m.findPlain scope name search true <;> rfl
    rw [lookupTypeBelow_succ _ hq hsplit, ModelM.after, ModelM.bind_apply, hresolve]
    exact concludeLookup_of_hookless h scope _ name markers _

theorem lookupTypeTo_of_plain (h : m.hook = none) (hquery : '<' ∉ query.toList) (depth : Nat) :
    (lookupTypeTo depth scope query search).after m = m := by
  rw [lookupTypeTo_eq]
  exact lookupTypeWith_of_plain h hquery

theorem size_script_of_plain {script : Script} {id : TypeId} (hs : script.Fills id)
    (hplain : script.AsksPlainly) (hhook : m.hook = none) (depth : Nat) :
    (Script.run (lookupTypeTo depth) script m).2.size = m.size := by
  induction script generalizing m with
  | done result => rfl
  | nameOf _ next ih => exact ih _ (hs _) (hplain _) hhook
  | signatureOf _ next ih => exact ih _ (hs _) (hplain _) hhook
  | lookup scope name search next ih =>
    rw [Script.run_lookup, lookupTypeTo_of_plain hhook hplain.1]
    exact ih _ (hs _) (hplain.2 _) hhook
  | addOperation scope op next ih =>
    obtain ⟨⟨rfl, hp⟩, hnext⟩ := hs
    rw [Script.run_addOperation]
    obtain he | he := after_addOperation m scope hp <;> rw [he]
    · exact ih _ (hnext _) (hplain _) hhook
    · have hhook' : (m.withOperation scope op).hook = none := hhook
      rw [ih _ (hnext _) (hplain _) hhook', withOperation, size_modifyNode]
  | declare | installHook | removeHook => exact hs.elim

/-- When such a script fills its classes, a template makes the class only. -/
theorem size_makeSpecialization_of_plain {specializer : Specializer} {types : List TypeRef}
    {id : TypeId} (hfills : (specializer.fill m.next types).Fills m.next)
    (hplain : (specializer.fill m.next types).AsksPlainly) (hhook : m.hook = none)
    (hfree : m.madeSpecialization? template types = none)
    (hok : makeSpecialization nestedScripts template specializer types m = .ok id m') :
    m'.size ≤ m.size + 1 := by
  have hafter : (makeSpecialization nestedScripts template specializer types).after m = m' := by
    rw [ModelM.after, hok]
  cases hc : (m.node (m.specializationScope template)).isContainer with
  | false =>
    rw [← hafter, makeSpecialization_refused hc]
    exact Nat.le_succ _
  | true =>
    have hsize : (nestedScripts (specializer.fill m.next types)
        (m.withNewClass ⟨template, types⟩)).2.size = m.size + 1 := by
      have hhook' : (m.withNewClass ⟨template, types⟩).hook = none := by
        rw [withNewClass, hook_linked]
        exact hhook
      rw [nestedScripts, size_script_of_plain hfills hplain hhook', withNewClass, size_linked,
        size_allocated]
    rw [makeSpecialization_eq hc hfree] at hok
    split at hok
    · next found finish hran =>
      cases hok
      rw [hran] at hsize
      exact hsize.le
    · next failure finish _ =>
      rw [ModelM.bind_apply] at hok
      split at hok <;> cases hok

/-- A name `Base<A,B>` with plain arguments leads to a type that was there, or its class is all that
is made, but for what its script makes. -/
theorem Steady.cases_of_plain {found : TypeRef} (h : Steady True p m)
    (hok : resolve scope search name m = .ok (some found) m')
    (hform : Template.split? name = some (base, arguments))
    (hplain : ∀ argument ∈ arguments, '<' ∉ argument.toList) :
    m' = m ∨ ∃ template specializer types id, m.findTemplate scope base search = some template ∧
      (m.node template).specializer? = some specializer ∧
      arguments.mapM (lookupType scope · search) m = .ok types m ∧
      m.madeSpecialization? template types = none ∧ found = .raw id ∧
      makeSpecialization nestedScripts template specializer types m = .ok id m' := by
  cases hwritten : m.findPlain scope name search true with
  | some ty =>
    rw [resolve_of_found hwritten] at hok
    cases hok
    exact .inl rfl
  | none =>
    obtain ⟨template, types, between, -, -, htemplate, htypes, -, -⟩ :=
      h.instance_of_resolve hwritten hform hok
    -- plain arguments make nothing, so only the class itself may be new
    obtain rfl := h.model_eq_of_plain_arguments htypes
      ((h.after_lookups htypes).2.silent trivial) hplain
    cases hmade : between.madeSpecialization? template types with
    | some made =>
      rw [resolve_of_made hwritten hform htemplate htypes hmade] at hok
      cases hok
      exact .inl rfl
    | none =>
      rw [resolve_of_template hwritten hform, instantiate, ModelM.bind_apply, ModelM.get_apply]
        at hok
      simp only [htemplate, ModelM.bind_apply, htypes, ModelM.get_apply, hmade] at hok
      cases hspecializer : (between.node template).specializer? with
      | none =>
        rw [hspecializer] at hok
        cases hok
      | some specializer =>
        rw [hspecializer] at hok
        dsimp only at hok
        rw [ModelM.bind_apply] at hok
        split at hok
        · next id finish hmake =>
          cases hok
          exact .inr ⟨template, specializer, types, id, htemplate, hspecializer, htypes, hmade, rfl,
            hmake⟩
        · cases hok

/-- A lookup of `Base<A,B>` with plain arguments makes one class at most if the script of the
template asks plainly. -/
theorem Steady.size_le_of_plain (h : Steady True p m)
    (hok : lookupType scope query search m = .ok ty m')
    (hsplit : TypeQuery.split (Name.normalizeQuery query) = .ok (name, markers))
    (hform : Template.split? name = some (base, arguments))
    (hplain : ∀ argument ∈ arguments, '<' ∉ argument.toList)
    (hscript : ∀ template specializer, m.findTemplate scope base search = some template →
      (m.node template).specializer? = some specializer → ∀ id types,
        (specializer.fill id types).Fills id ∧ (specializer.fill id types).AsksPlainly) :
    m'.size ≤ m.size + 1 := by
  obtain ⟨found, hresolve, -⟩ :=
    h.resolve_of_lookup hok ((h.after_lookup hok).2.silent trivial) hsplit
  obtain rfl | ⟨template, specializer, types, id, htemplate, hspecializer, -, hmade, -, hmake⟩ :=
    h.cases_of_plain hresolve hform hplain
  · exact Nat.le_succ _
  · obtain ⟨hfills, hasks⟩ := hscript template specializer htemplate hspecializer _ types
    exact size_makeSpecialization_of_plain hfills hasks (h.tame trivial).hook hmade hmake

/-- A new map comes with the vector of its keys at most. -/
theorem addsNamed_of_map {vector map id : TypeId} {std : TypeId} {types : List TypeRef}
    (hs : Sound p m) (hm : m.NamesUndivided) (hstd : m.HasStdTypes std vector map)
    (hname : Path.splitFirst? (m.specializationName map types) = none)
    (hkey : ∀ key ∈ types.head?, m.Quotable key.base ∧ key.Unstacked)
    (hfree : m.madeSpecialization? map types = none)
    (hok : makeSpecialization nestedScripts map StdTypes.map types m = .ok id m') :
    id = m.next ∧ ∃ text, (m.withNewClass ⟨map, types⟩).AddsNamed m' ("vector<" ++ text ++ ">") := by
  have htemplate := isTemplate_of_specializer hstd.fillsMap
  have hc : (m.node (m.specializationScope map)).isContainer = true := by
    rw [hstd.specializationScope_map hs.isTree]
    exact hstd.isContainer_std
  obtain ⟨rfl, found, hran⟩ := made_of_makeSpecialization hc hfree hok
  refine ⟨rfl, ?_⟩
  rcases types with _ | ⟨key, _ | ⟨value, rest⟩⟩
  · cases hran
  · cases hran
  · obtain ⟨hquotable, hlayers⟩ := hkey key rfl
    let m₁ := m.withNewClass ⟨map, key :: value :: rest⟩
    have ht : m₁.IsTree := ((run_withNewClass hs htemplate hc hfree).sound hs).isTree
    have hstd₁ : m₁.HasStdTypes std vector map := hstd.withNewClass htemplate hc hfree
    have hnode : m₁.node m.next = m.newClass ⟨map, key :: value :: rest⟩ :=
      node_withNewClass_next hc
    have hrun : Script.run (lookupTypeTo (scriptDepth - 1))
        (StdTypes.fillMap m.next (key :: value :: rest)) m₁ = (.ok found, m') := hran
    obtain ⟨_, _, _, keys, m₂, rfl, -, hnamed, -⟩ := withOperations_of_fillMap ht hstd₁
      (hm.withNewClass hc hname) (hquotable.withNewClass htemplate hc hfree) hlayers
      (by rw [hnode]; rfl) hrun
    rw [hstd₁.specializationName_vector ht] at hnamed
    exact ⟨_, hnamed.withOperations _ _⟩

/-- The lookup of `Base<A,B>` is idempotent as long as no class that was made since the query, or an
argument with brackets, was resolved has a name that this ends with, except for the class that it
was resolved to. -/
theorem Reachable.lookupType_of_names (h : Reachable p m) (hp : p.plainNames)
    (hc : m.SelfContained) (hhook : m.hook = none)
    (hstd : ∀ id specializer, (m.node id).specializer? = some specializer →
      specializer = StdTypes.vector ∨ specializer = StdTypes.map)
    (hok : lookupType scope query search m = .ok ty m')
    (hnames : ∀ q, Asks m' scope search m .whole query q → '<' ∈ q.name.toList →
      ∃ base arguments, Template.split? q.name = some (base, arguments) ∧ '>' ∉ base.toList ∧
        ∀ id, ¬ q.model.Knows id → m'.Knows id → (m'.node id).name.toList <:+ q.name.toList →
          q.result = .raw id) : lookupType scope query search m' = .ok ty m' := by
  have hm : Steady True p m := ⟨h.sound, hc, fun _ => StdTypes.tame_model hhook hstd⟩
  obtain ⟨hm', he⟩ := hm.after_lookup hok
  have hbracketed : Bracketed m' :=
    ((does_lookupType scope query search hm.sound).run_of_ok hok).bracketed hp (h.bracketed hp)
  have hhits : Hits m' scope search True .whole query ty :=
    hm.hits_again hok (he.silent trivial) fun _ _ q hq hname => by
      obtain ⟨base, arguments, hform, hbase, hother⟩ := hnames q hq (hname trivial)
      exact ⟨.of_names hbracketed hm'.sound.isTree hform hbase hother, .inl trivial⟩
  exact hhits.lookupType_eq

/-- The lookup of a vector whose arguments are spelled without brackets is idempotent, whatever the
query is found as afterwards. -/
theorem Reachable.vector_again (h : Reachable p m) (hc : m.SelfContained) (hhook : m.hook = none)
    (hstd : ∀ id specializer, (m.node id).specializer? = some specializer →
      specializer = StdTypes.vector ∨ specializer = StdTypes.map)
    (hsplit : TypeQuery.split (Name.normalizeQuery query) = .ok (name, markers))
    (hform : Template.split? name = some (base, arguments)) (hbase : '>' ∉ base.toList)
    (hplain : ∀ argument ∈ arguments, '<' ∉ argument.toList)
    (hvector : ∀ template, m.findTemplate scope base search = some template →
      (m.node template).specializer? = some StdTypes.vector)
    (hok : lookupType scope query search m = .ok ty m') :
    lookupType scope query search m' = .ok ty m' := by
  have hm : Steady True p m := ⟨h.sound, hc, fun _ => StdTypes.tame_model hhook hstd⟩
  have hsize := hm.size_le_of_plain hok hsplit hform hplain fun template specializer ht hs => by
    obtain rfl := Option.some.inj ((hvector template ht).symm.trans hs)
    exact fun id types => ⟨StdTypes.fills_vector types, StdTypes.asksPlainly_vector types⟩
  have hone : MakesOne m m' query := ⟨name, markers, base, arguments, hsplit, hform, hbase, hplain,
    hsize⟩
  have hhits : Hits m' scope search True .whole query ty :=
    hm.hits_again hok ((hm.after_lookup hok).2.silent trivial) fun _ hmore =>
      absurd ⟨trivial, hone⟩ hmore
  exact hhits.lookupType_eq

/-- So is that of a map whose arguments are spelled without brackets, if the query names no vector
and the key is found from the root under its full name. -/
theorem Reachable.map_again {std vector map : TypeId} (h : Reachable p m) (hp : p.plainNames)
    (hc : m.SelfContained) (hhook : m.hook = none)
    (hstd : ∀ id specializer, (m.node id).specializer? = some specializer →
      specializer = StdTypes.vector ∨ specializer = StdTypes.map)
    (hregistered : m.HasStdTypes std vector map) (hm : m.NamesUndivided)
    (hsplit : TypeQuery.split (Name.normalizeQuery query) = .ok (name, markers))
    (hform : Template.split? name = some (base, arguments)) (hbase : '>' ∉ base.toList)
    (hplain : ∀ argument ∈ arguments, '<' ∉ argument.toList)
    (hquery : ¬ "vector<".toList <:+: name.toList)
    (hmap : m.findTemplate scope base search = some map)
    (htypes : ∀ types, arguments.mapM (lookupType scope · search) m = .ok types m →
      Path.splitFirst? (m.specializationName map types) = none ∧
        ∀ key ∈ types.head?, m.Quotable key.base ∧ key.Unstacked)
    (hok : lookupType scope query search m = .ok ty m') :
    lookupType scope query search m' = .ok ty m' := by
  have hsteady : Steady True p m := ⟨h.sound, hc, fun _ => StdTypes.tame_model hhook hstd⟩
  obtain ⟨hm', he⟩ := hsteady.after_lookup hok
  have hquiet := he.silent trivial
  have hbracketed : Bracketed m' :=
    ((does_lookupType scope query search h.sound).run_of_ok hok).bracketed hp (h.bracketed hp)
  obtain ⟨found, hresolve, -⟩ := hsteady.resolve_of_lookup hok hquiet hsplit
  have hother : ∀ id, ¬ m.Knows id → m'.Knows id → (m'.node id).name.toList <:+ name.toList →
      found = .raw id := by
    intro id hid hid' hsuffix
    obtain rfl | ⟨_, specializer, types, made, htemplate, hfills, hlookups, hfree, rfl, hmake⟩ :=
      hsteady.cases_of_plain hresolve hform hplain
    · exact absurd hid' hid
    obtain rfl := Option.some.inj (hmap.symm.trans htemplate)
    obtain rfl := Option.some.inj (hregistered.fillsMap.symm.trans hfills)
    obtain ⟨hname, hkey⟩ := htypes types hlookups
    obtain ⟨rfl, text, hnamed⟩ := addsNamed_of_map h.sound hm hregistered hname hkey hfree hmake
    by_cases hnew : (m.withNewClass ⟨map, types⟩).Knows id
    · obtain rfl := (knows_withNewClass_iff.mp hnew).resolve_left hid
      rfl
    · -- the query would end with the name of the vector
      rw [hnamed id hnew hid', String.toList_append, String.toList_append, List.append_assoc]
        at hsuffix
      exact absurd ((List.prefix_append _ _).isInfix.trans hsuffix.isInfix) hquery
  have hhits : Hits m' scope search True .whole query ty :=
    hsteady.hits_again hok hquiet fun _ _ q hq hname => by
      obtain ⟨_, _, rfl, resolved⟩ := hq.of_plain_arguments hsplit hform hplain (hname trivial)
      rw [resolved] at hresolve
      cases hresolve
      exact ⟨.of_names hbracketed hm'.sound.isTree hform hbase hother, .inl trivial⟩
  exact hhits.lookupType_eq

end Model

end ApiModel
