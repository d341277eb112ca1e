import ApiModel.Proofs.Finding

/-!
Where a query with template arguments leads to. The class is found under the name that the query
spells, or under the name that the template and the resolved arguments have in writing, or it is
made now. In each case it was made from a template, and was named for what it was made from.
-/

namespace ApiModel

open Relation

namespace Model

variable {m m' : Model} {scope : TypeId} {search : Search} {run : ScriptRunner}

theorem mapM_congr {μ : Type → Type} [Monad μ] [LawfulMonad μ] {α β : Type} {f g : α → μ β}
    {xs : List α} (h : ∀ a ∈ xs, f a = g a) : xs.mapM f = xs.mapM g := by
  induction xs with
  | nil => rfl
  | cons a xs ih =>
    have hrest : xs.mapM f = xs.mapM g := ih fun b hb => h b (List.mem_cons_of_mem a hb)
    rw [List.mapM_cons, List.mapM_cons, h a List.mem_cons_self, hrest]

theorem instantiate_congr {f g : String → ModelM TypeRef} {base : String} {arguments : List String}
    (h : ∀ a ∈ arguments, f a = g a) :
    instantiate run f scope base arguments search =
      instantiate run g scope base arguments search := by
  unfold instantiate
  rw [mapM_congr h]

/-- Arguments are looked up only if they are parts of the name. -/
theorem resolveBelow_congr {f g : TypeId → String → Search → ModelM TypeRef} (bound : Nat)
    {name : String} (h : ∀ text : String, text.toList.Sublist name.toList →
      text.length < name.length → f scope text search = g scope text search) :
    resolveBelow run f scope search bound name = resolveBelow run g scope search bound name := by
  induction bound generalizing name with
  | zero => rfl
  | succ bound ih =>
    unfold resolveBelow
    congr 1
    funext m
    split
    · rfl
    split
    · next base arguments hsplit =>
      refine instantiate_congr fun a ha => ?_
      obtain ⟨hsub, hlt⟩ := Template.argument_sublist hsplit ha
      exact h a hsub hlt
    · next head tail hcut =>
      obtain ⟨hsub, hlt⟩ := Template.head_sublist hcut
      rw [ih fun text htext hlength => h text (htext.trans hsub) (hlength.trans hlt)]
    · rfl

theorem lookupTypeBelow_succ {query name : String} {markers : List Char} (bound : Nat)
    (hq : Name.normalizeQuery query ≠ "")
    (hsplit : TypeQuery.split (Name.normalizeQuery query) = .ok (name, markers)) :
    lookupTypeBelow run (bound + 1) scope query search =
      resolveBelow run (lookupTypeBelow run bound) scope search (name.length + 1) name >>=
        concludeLookup run scope (Name.normalizeQuery query) name markers := by
  rw [lookupTypeBelow]
  dsimp only
  rw [if_neg hq, hsplit, ModelM.ofExcept_ok, pure_bind]

theorem lookupTypeBelow_of_empty {query : String} (bound : Nat)
    (hq : Name.normalizeQuery query = "") :
    lookupTypeBelow run (bound + 1) scope query search =
      throw (.invalidName query "no type name") := by
  rw [lookupTypeBelow]
  dsimp only
  rw [if_pos hq, ModelM.throw_bind]

theorem lookupTypeBelow_of_error {query : String} {failure : ModelError} (bound : Nat)
    (hq : Name.normalizeQuery query ≠ "")
    (hsplit : TypeQuery.split (Name.normalizeQuery query) = .error failure) :
    lookupTypeBelow run (bound + 1) scope query search = throw failure := by
  rw [lookupTypeBelow]
  dsimp only
  rw [if_neg hq, hsplit, ModelM.ofExcept_error, ModelM.throw_bind]

/-- Parts of a query have no dots, so their normal forms are not longer than they are. -/
theorem length_normalizeQuery_lt {query name text : String} {markers : List Char}
    (hsplit : TypeQuery.split (Name.normalizeQuery query) = .ok (name, markers))
    (hsub : text.toList.Sublist name.toList) (hlt : text.length < name.length) :
    (Name.normalizeQuery text).length < (Name.normalizeQuery query).length := by
  have hname := TypeQuery.split_eq_ok hsplit
  have hdot : '.' ∉ text.toList := fun hmem =>
    Name.no_dot_normalizeQuery query (hname.subset (hsub.subset hmem))
  have hlength := hname.length_le
  rw [String.length_toList, String.length_toList] at hlength
  exact ((Name.length_normalizeQuery_le hdot).trans_lt hlt).trans_le hlength

/-- Every bound above the length of the query gives the same lookup. -/
theorem lookupTypeBelow_eq {bound bound' : Nat} {query : String}
    (h : (Name.normalizeQuery query).length < bound)
    (h' : (Name.normalizeQuery query).length < bound') :
    lookupTypeBelow run bound scope query search =
      lookupTypeBelow run bound' scope query search := by
  induction bound generalizing bound' query with
  | zero => omega
  | succ bound ih =>
    obtain ⟨bound', rfl⟩ : ∃ n, bound' = n + 1 := ⟨bound' - 1, by omega⟩
    by_cases hq : Name.normalizeQuery query = ""
    · rw [lookupTypeBelow_of_empty _ hq, lookupTypeBelow_of_empty _ hq]
    cases hsplit : TypeQuery.split (Name.normalizeQuery query) with
    | error e => rw [lookupTypeBelow_of_error _ hq hsplit, lookupTypeBelow_of_error _ hq hsplit]
    | ok parts =>
      obtain ⟨name, markers⟩ := parts
      rw [lookupTypeBelow_succ _ hq hsplit, lookupTypeBelow_succ _ hq hsplit]
      rw [resolveBelow_congr _ fun text hsub hlt => ?_]
      have hlength := length_normalizeQuery_lt hsplit hsub hlt
      exact ih (by omega) (by omega)

variable {p : Policy} {name base : String} {arguments : List String} {ty : TypeRef}

/-- How a query `Base<A,B>` leads to a class that was made from a template and arguments, on a
course through the listed models. -/
inductive Served (models : List Model) (m m' : Model) (scope : TypeId) (search : Search)
    (name base : String) (arguments : List String) (id : TypeId) (made : Specialization) : Prop
  /-- The query is found as it is written: it ends with the name that the class was given for the
  template and the arguments that it was made from. -/
  | asWritten (found : m.findPlain scope name search true = some (.raw id)) (unchanged : m' = m)
      (named : NamedFor models m' id made)
      (ending : (m'.node id).name.toList <:+ name.toList)
  /-- The class is listed under the written form of the template and the arguments that the query
  asks for: what it was made from was written in the same way when it was made. -/
  | listed {asked : Specialization} {between : Model}
      (notFound : m.findPlain scope name search true = none)
      (template : m.findTemplate scope base search = some asked.template)
      (resolved : arguments.mapM (lookupType scope · search) m = .ok asked.arguments between)
      (listed : between.madeSpecialization? asked.template asked.arguments = some id)
      (unchanged : m' = between) (named : NamedFor models m' id made)
      (written : (m'.node id).name = m'.specializationName asked.template asked.arguments)
  /-- The class is made now, from the template and the arguments that the query asks for. -/
  | new {between : Model} (notFound : m.findPlain scope name search true = none)
      (template : m.findTemplate scope base search = some made.template)
      (resolved : arguments.mapM (lookupType scope · search) m = .ok made.arguments between)
      (free : between.madeSpecialization? made.template made.arguments = none)
      (next : id = between.next)

theorem base_applyMarkers (ty : TypeRef) (markers : List Char) :
    (TypeQuery.applyMarkers ty markers).base = ty.base := by
  unfold TypeQuery.applyMarkers
  induction markers generalizing ty with
  | nil => rfl
  | cons c markers ih =>
    rw [List.foldl_cons, ih]
    split <;> rfl

theorem Run.bracketed (hp : p.plainNames) (h : Run p m m') (hm : Bracketed m) :
    Bracketed m' := by
  induction h with
  | refl => exact hm
  | tail _ hc ih => exact hc.bracketed hp ih

/-- A class that is listed under the written form of a template and arguments was made from a
template, and has the written form for its name. -/
theorem Bracketed.made_of_listed (hm : Bracketed m) (ht : m.IsTree) {asked : Specialization}
    {id : TypeId} (h : m.madeSpecialization? asked.template asked.arguments = some id) :
    (∃ made, (m.node id).specialization = some made) ∧ '<' ∈ (m.node id).name.toList ∧
      (m.node id).name = m.specializationName asked.template asked.arguments := by
  have hname := (ht.listed h).1
  have hb : '<' ∈ (m.node id).name.toList := by
    rw [hname, specializationName]
    simp
  exact ⟨hm.made id hb, hb, hname⟩

theorem exists_runs_lookupType (p : Policy) :
    ∃ run, Runs p run ∧ lookupType = lookupTypeWith run := by
  obtain ⟨depth, hdepth⟩ : ∃ depth, scriptDepth = depth + 1 := ⟨9999, rfl⟩
  refine ⟨Script.run (lookupTypeTo depth), runs_script ?_, ?_⟩
  · exact fun scope name search m hs => does_lookupTypeTo depth scope name search hs
  · funext scope query search
    rw [lookupType, hdepth, lookupTypeTo]

/-- Where the name of a query with template arguments leads to without the hook, on every course on
which a class that has a name with brackets was named for its record. -/
theorem does_resolveBelow_template (hp : p.plainNames) (hrun : Runs p run) (hs : Sound p m)
    (hm : Bracketed m) (hform : Template.split? name = some (base, arguments)) (bound : Nat)
    (lookupArgument : TypeId → String → Search → ModelM TypeRef)
    (hl : ∀ scope text search m, Sound p m →
      Does p m (lookupArgument scope text search) fun _ _ => True)
    (heq : ∀ a ∈ arguments, lookupArgument scope a search = lookupType scope a search) :
    Does p m (resolveBelow run lookupArgument scope search (bound + 1) name) fun found m' =>
      ∀ ty, found = some ty → ∃ id made, ty = .raw id ∧ (m'.node id).specialization = some made ∧
        ∀ models, ('<' ∈ (m'.node id).name.toList → NamedFor models m' id made) →
          Served models m m' scope search name base arguments id made := by
  unfold resolveBelow
  refine .get_bind ?_
  split
  · next found hfound =>
    refine .pure fun ty hty => ?_
    obtain rfl := Option.some.inj hty
    obtain ⟨id, made, rfl, hmade, hb, hsuffix⟩ := made_of_findPlain hm hs.isTree hform hfound
    exact ⟨id, made, rfl, hmade, fun _ hnamed => .asWritten hfound rfl (hnamed hb) hsuffix⟩
  · next hnone =>
    rw [hform]
    dsimp only
    refine (does_instantiate hrun hs fun text m hs => hl scope text search m hs).mono ?_
    intro found m' hr hpost ty hty
    obtain ⟨id, asked, between, rfl, hinst, hbetween⟩ := hpost ty hty
    have hresolved := hinst.arguments
    rw [mapM_congr heq] at hresolved
    obtain ⟨hlisted, rfl⟩ | ⟨hfree, hnext, hmade⟩ := hinst.result
    · obtain ⟨⟨made, hmade⟩, hb, hname⟩ :=
        (hbetween.bracketed hp hm).made_of_listed (hbetween.sound hs).isTree hlisted
      exact ⟨id, made, rfl, hmade, fun _ hnamed =>
        .listed hnone hinst.template hresolved hlisted rfl (hnamed hb) hname⟩
    · exact ⟨id, asked, rfl, hmade, fun _ _ =>
        .new hnone hinst.template hresolved hfree hnext⟩

/-- A query with template arguments that succeeds without the hook leads to a class that was made
from a template. -/
theorem History.served {steps : List (Model × Action)} (h : History .namesPlain steps m)
    {query : String} {markers : List Char}
    (hq : TypeQuery.split (Name.normalizeQuery query) = .ok (name, markers))
    (hform : Template.split? name = some (base, arguments))
    (hok : lookupType scope query search m = .ok ty m') (hquiet : m'.journal = m.journal) :
    ty = TypeQuery.applyMarkers (.raw ty.base) markers ∧
      ∃ made, (m'.node ty.base).specialization = some made ∧
        (∃ models, Course .namesPlain (steps ++ [(m, .lookupType scope query search)]) models m') ∧
        ∀ models, Course .namesPlain (steps ++ [(m, .lookupType scope query search)]) models m' →
          Served models m m' scope search name base arguments ty.base made := by
  obtain ⟨run, hrun, hlookup⟩ := exists_runs_lookupType .namesPlain
  have hs := h.reachable.sound
  have hafter : (Action.lookupType scope query search).run.after m = m' := by
    rw [Action.run, ModelM.after, ModelM.bind_apply, hok]
    rfl
  have hstep := hafter ▸ h.step (.lookupType scope query search) trivial
  have heq : ∀ a ∈ arguments, lookupTypeBelow run (Name.normalizeQuery query).length scope a
      search = lookupType scope a search := by
    intro a ha
    obtain ⟨hsub, hlt⟩ := Template.argument_sublist hform ha
    rw [hlookup, lookupTypeWith]
    exact lookupTypeBelow_eq (length_normalizeQuery_lt hq hsub hlt) (Nat.lt_succ_self _)
  have hne : Name.normalizeQuery query ≠ "" := by
    intro he
    obtain ⟨inner, hname, -⟩ := Template.split?_eq_some hform
    have hsub := TypeQuery.split_eq_ok hq
    rw [he, hname] at hsub
    simpa using hsub.length_le
  have hresolve := does_resolveBelow_template trivial hrun hs (h.reachable.bracketed trivial) hform
    name.length (lookupTypeBelow run (Name.normalizeQuery query).length)
    (fun scope text search m hs => does_lookupTypeBelow hrun _ scope text search hs) heq
  rw [hlookup, lookupTypeWith, lookupTypeBelow_succ _ hne hq, ModelM.bind_apply] at hok
  split at hok
  · next resolved between hbetween =>
    have hr := hresolve.run_of_ok hbetween
    have hconclude := does_concludeLookup hrun (hr.sound hs) scope (Name.normalizeQuery query) name
      markers resolved
    have hr' := hconclude.run_of_ok hok
    obtain ⟨found, rfl, rfl, rfl⟩ | hne := hconclude.post hok
    · obtain ⟨id, made, rfl, hmade, hserved⟩ := hresolve.post hbetween found rfl
      rw [base_applyMarkers]
      refine ⟨rfl, made, hmade, hstep.exists_course, fun models course => hserved models ?_⟩
      exact course.namedFor trivial id made hmade
    · -- nothing was written to the journal, so the hook was not asked at the end either
      have hback : m'.journal <+: between.journal := hquiet ▸ hr.journal_prefix
      exact absurd (hback.eq_of_length_le hr'.journal_prefix.length_le) hne
  · cases hok

def outcome (m : Model) (scope : TypeId) (query : String) :
    Option (TypeRef × Option Specialization) :=
  match lookupType scope query .owners m with
  | .ok ty m' =>
    if m'.journal = m.journal then some (ty, (m'.node ty.base).specialization) else none
  | .error _ _ => none

theorem outcome_eq_some {query : String} {record : Option Specialization}
    (h : m.outcome scope query = some (ty, record)) :
    ∃ m', lookupType scope query .owners m = .ok ty m' ∧ m'.journal = m.journal ∧
      (m'.node ty.base).specialization = record := by
  unfold outcome at h
  split at h
  · next ty m' hok =>
    split at h
    · next hquiet =>
      cases h
      exact ⟨m', hok, hquiet, rfl⟩
    · cases h
  · cases h

def twoClasses : List Action :=
  [.addTemplate .root "V" ⟨"plain", fun _ _ => .finish⟩,
   .addType .root (declaration .classType "" "A") true,
   .addType .root (declaration .classType "n" "A") true]

theorem admissible_declaration {path : String} (h : '<' ∉ path.toList) (m : Model) :
    Action.Admissible .namesPlain m (.addType .root (declaration .classType path "A") true) :=
  isFresh_declaration (fun _ => h) fun _ => by decide

theorem admissible_twoClasses (actions : List Action)
    (h : ∀ action ∈ actions, ∀ m, action.Admissible .namesPlain m) :
    ∀ action ∈ twoClasses ++ actions, ∀ m, action.Admissible .namesPlain m := by
  refine List.forall_mem_append.mpr ⟨?_, h⟩
  simp only [twoClasses, List.forall_mem_cons, List.not_mem_nil, false_imp_iff, implies_true,
    and_true]
  refine ⟨fun _ => ⟨fun _ => by decide, fun _ _ => trivial⟩, ?_, ?_⟩
  · exact admissible_declaration (by decide)
  · exact admissible_declaration (by decide)

theorem reachable_twoClasses (actions : List Action)
    (h : ∀ action ∈ actions, ∀ m, action.Admissible .namesPlain m) :
    Reachable .namesPlain (bare.afterAll (twoClasses ++ actions)) :=
  reachable_bare.afterAll (admissible_twoClasses actions h)

/-- From the root, the query `V<A>` makes a class from `A`. -/
theorem served_new : ∃ steps m ty m', History .namesPlain steps m ∧
    lookupType .root "V<A>" .owners m = .ok ty m' ∧ m'.journal = m.journal ∧
    ∃ made, (m'.node ty.base).specialization = some made ∧
      (∃ models, Course .namesPlain (steps ++ [(m, .lookupType .root "V<A>" .owners)]) models m') ∧
      ∀ models, Course .namesPlain (steps ++ [(m, .lookupType .root "V<A>" .owners)]) models m' →
        Served models m m' .root .owners "V<A>" "V" ["A"] ty.base made := by
  have h : History .namesPlain _ _ := history_bare.afterAll <|
    admissible_twoClasses [] fun _ ha => absurd ha List.not_mem_nil
  have houtcome : (bare.afterAll (twoClasses ++ [])).outcome .root "V<A>" =
      some (.raw ⟨5⟩, some ⟨⟨1⟩, [.raw ⟨2⟩]⟩) := by decide +kernel
  obtain ⟨m', hok, hquiet, -⟩ := outcome_eq_some houtcome
  exact ⟨_, _, _, m', h, hok, hquiet, (h.served (by rfl) (by rfl) hok hquiet).2⟩

/-- After that the same query leads to this class from the namespace `n` too, where `A` is the other
class. And when the first `A` is called `B` and there is a third class `A`, the query `V<::A>`,
which is not found as it is written, leads to it. -/
theorem served_other_argument :
    (∃ m, Reachable .namesPlain m ∧ m.findTemplate ⟨3⟩ "V" .owners = some ⟨1⟩ ∧
      m.outcome ⟨3⟩ "V<A>" = some (.raw ⟨5⟩, some ⟨⟨1⟩, [.raw ⟨2⟩]⟩) ∧
      m.outcome ⟨3⟩ "A" = some (.raw ⟨4⟩, none)) ∧
    ∃ m, Reachable .namesPlain m ∧ m.findTemplate .root "V" .owners = some ⟨1⟩ ∧
      m.findPlain .root "V<::A>" .owners true = none ∧
      m.outcome .root "V<::A>" = some (.raw ⟨5⟩, some ⟨⟨1⟩, [.raw ⟨2⟩]⟩) ∧
      m.outcome .root "::A" = some (.raw ⟨6⟩, none) := by
  have hB : ∀ m, Action.Admissible .namesPlain m (.renameType ⟨2⟩ "B") := by
    refine fun m => ⟨fun _ => by decide, fun ⟨path, _, _, hn, hparent, _⟩ => ?_⟩
    have hnormal : Name.normalize "B" = .ok "B" := rfl
    obtain rfl : "B" = path := Except.ok.inj (hnormal.symm.trans hn)
    exact hparent (by decide)
  refine ⟨⟨_, reachable_twoClasses [.lookupType .root "V<A>" .owners] ?_, ?_⟩,
    ⟨_, reachable_twoClasses [.lookupType .root "V<A>" .owners, .renameType ⟨2⟩ "B",
      .addType .root (declaration .classType "" "A") true] ?_, ?_⟩⟩
  · simp only [List.forall_mem_cons, List.not_mem_nil, false_imp_iff, implies_true, and_true]
    exact fun _ => trivial
  · decide +kernel
  · simp only [List.forall_mem_cons, List.not_mem_nil, false_imp_iff, implies_true, and_true]
    exact ⟨fun _ => trivial, hB, admissible_declaration (by decide)⟩
  · decide +kernel

end Model

end ApiModel
