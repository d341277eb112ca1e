import ApiModel.Proofs.Specialization

/-!
Lookups for which reading is enough. A query hits when its name is found as it is written, or when
its template and all its arguments hit and the class was made before; full lookup then gives the
type of the hit and changes nothing. Reading lookup finds nothing but hits.
-/

namespace ApiModel

open Relation

namespace Model

variable {m m' : Model} {scope : TypeId} {search : Search} {query name base : String}
  {markers : List Char} {arguments : List String} {ty : TypeRef} {run : ScriptRunner}

def nestedScripts : ScriptRunner := Script.run (lookupTypeTo (scriptDepth - 1))

theorem lookupType_eq_with : lookupType = lookupTypeWith nestedScripts := by
  obtain ⟨depth, hdepth⟩ : ∃ depth, scriptDepth = depth + 1 := ⟨9999, rfl⟩
  funext scope query search
  rw [lookupType, nestedScripts, hdepth, lookupTypeTo, Nat.add_sub_cancel]

/-- What the name of a query resolves to, before the hook is asked for it. -/
def resolve (scope : TypeId) (search : Search) (name : String) : ModelM (Option TypeRef) :=
  resolveBelow nestedScripts lookupType scope search (name.length + 1) name

/-- Every bound above the length of the name gives the same result. -/
theorem resolveBelow_eq {lookupArgument : TypeId → String → Search → ModelM TypeRef}
    {bound bound' : Nat} (h : name.length < bound) (h' : name.length < bound') :
    resolveBelow run lookupArgument scope search bound name =
      resolveBelow run lookupArgument scope search bound' name := by
  induction bound generalizing bound' name with
  | zero => omega
  | succ bound ih =>
    obtain ⟨bound', rfl⟩ : ∃ n, bound' = n + 1 := ⟨bound' - 1, by omega⟩
    unfold resolveBelow
    congr 1
    funext m
    split
    · rfl
    split
    · rfl
    · next head tail _ hcut =>
      obtain ⟨-, hlt⟩ := Template.head_sublist hcut
      rw [ih (show head.length < bound by omega) (show head.length < bound' by omega)]
    · rfl

theorem lookupType_eq (hq : Name.normalizeQuery query ≠ "")
    (hsplit : TypeQuery.split (Name.normalizeQuery query) = .ok (name, markers)) :
    lookupType scope query search = resolve scope search name >>=
      concludeLookup nestedScripts scope (Name.normalizeQuery query) name markers := by
  have hresolve : resolveBelow nestedScripts
      (lookupTypeBelow nestedScripts (Name.normalizeQuery query).length) scope search
      (name.length + 1) name = resolve scope search name := by
    refine resolveBelow_congr _ fun text hsub hlt => ?_
    rw [lookupType_eq_with]
    exact lookupTypeBelow_eq (length_normalizeQuery_lt hsplit hsub hlt) (Nat.lt_succ_self _)
  rw [lookupType_eq_with, lookupTypeWith, lookupTypeBelow_succ _ hq hsplit, hresolve]

theorem parts_of_lookupType (h : lookupType scope query search m = .ok ty m') :
    Name.normalizeQuery query ≠ "" ∧
      ∃ name markers, TypeQuery.split (Name.normalizeQuery query) = .ok (name, markers) := by
  rw [lookupType_eq_with, lookupTypeWith] at h
  by_cases hq : Name.normalizeQuery query = ""
  · rw [lookupTypeBelow_of_empty _ hq] at h
    cases h
  · refine ⟨hq, ?_⟩
    cases hsplit : TypeQuery.split (Name.normalizeQuery query) with
    | error failure =>
      rw [lookupTypeBelow_of_error _ hq hsplit] at h
      cases h
    | ok parts => exact ⟨parts.1, parts.2, rfl⟩

theorem resolve_of_found (h : m.findPlain scope name search true = some ty) :
    resolve scope search name m = .ok (some ty) m := by
  rw [resolve, resolveBelow, ModelM.bind_apply, ModelM.get_apply]
  simp only [h, ModelM.pure_apply]

theorem resolve_of_template (h : m.findPlain scope name search true = none)
    (hform : Template.split? name = some (base, arguments)) :
    resolve scope search name m =
      instantiate nestedScripts (lookupType scope · search) scope base arguments search m := by
  rw [resolve, resolveBelow, ModelM.bind_apply, ModelM.get_apply]
  simp only [h, hform]

theorem resolve_of_member {head tail : String} (h : m.findPlain scope name search true = none)
    (hform : Template.split? name = none)
    (hcut : Path.splitAfterTemplate? name = some (head, tail)) :
    resolve scope search name m =
      match resolve scope search head m with
      | .ok (some outer) m' => .ok (m'.findPlain outer.base tail .local true) m'
      | .ok none m' => .ok none m'
      | .error failure m' => .error failure m' := by
  have hhead : resolveBelow nestedScripts lookupType scope search name.length head =
      resolve scope search head :=
    resolveBelow_eq (Template.head_sublist hcut).2 (Nat.lt_succ_self _)
  rw [resolve, resolveBelow, ModelM.bind_apply, ModelM.get_apply]
  simp only [h, hform, hcut, hhead, ModelM.bind_apply]
  cases resolve scope search head m with
  | ok outer m' => cases outer <;> rfl
  | error failure m' => rfl

theorem resolve_of_neither (h : m.findPlain scope name search true = none)
    (hform : Template.split? name = none) (hcut : Path.splitAfterTemplate? name = none) :
    resolve scope search name m = .ok none m := by
  rw [resolve, resolveBelow, ModelM.bind_apply, ModelM.get_apply]
  simp only [h, hform, hcut, ModelM.pure_apply]

theorem resolve_of_made {template id : TypeId} {types : List TypeRef}
    (h : m.findPlain scope name search true = none)
    (hform : Template.split? name = some (base, arguments))
    (hnamed : m.findTemplate scope base search = some template)
    (htypes : arguments.mapM (lookupType scope · search) m = .ok types m)
    (hlisted : m.madeSpecialization? template types = some id) :
    resolve scope search name m = .ok (some (.raw id)) m := by
  rw [resolve_of_template h hform, instantiate, ModelM.bind_apply, ModelM.get_apply]
  simp only [hnamed, ModelM.bind_apply, htypes, ModelM.get_apply, hlisted, ModelM.pure_apply]

def findMade (m : Model) (scope : TypeId) (search : Search) (name : String) : Option TypeRef := do
  let (base, arguments) ← Template.split? name
  let template ← m.findTemplate scope base search
  let types ← arguments.mapM (m.findType scope · search)
  let id ← m.madeSpecialization? template types
  return .raw id

theorem findTypeBelow_eq {bound bound' : Nat} (h : (Name.normalizeQuery query).length < bound)
    (h' : (Name.normalizeQuery query).length < bound') :
    m.findTypeBelow search scope bound query = m.findTypeBelow search scope bound' query := by
  induction bound generalizing bound' query with
  | zero => omega
  | succ bound ih =>
    obtain ⟨bound', rfl⟩ : ∃ n, bound' = n + 1 := ⟨bound' - 1, by omega⟩
    unfold findTypeBelow
    cases hsplit : TypeQuery.split (Name.normalizeQuery query) with
    | error failure => rfl
    | ok parts =>
      obtain ⟨name, markers⟩ := parts
      dsimp only
      cases hform : Template.split? name with
      | none => rfl
      | some cut =>
        obtain ⟨base, arguments⟩ := cut
        have harguments : arguments.mapM (m.findTypeBelow search scope bound) =
            arguments.mapM (m.findTypeBelow search scope bound') := by
          refine mapM_congr fun a ha => ?_
          obtain ⟨hsub, hlt⟩ := Template.argument_sublist hform ha
          have hlength := length_normalizeQuery_lt hsplit hsub hlt
          exact ih (by omega) (by omega)
        simp only [Option.bind_eq_bind, Option.bind_some, harguments]

theorem findType_eq (hsplit : TypeQuery.split (Name.normalizeQuery query) = .ok (name, markers)) :
    m.findType scope query search =
      ((m.findPlain scope name search true).or (m.findMade scope search name)).map
        (TypeQuery.applyMarkers · markers) := by
  rw [findType, findTypeBelow, hsplit]
  dsimp only
  cases hform : Template.split? name with
  | none => simp [findMade, hform]
  | some cut =>
    obtain ⟨base, arguments⟩ := cut
    have harguments :
        arguments.mapM (m.findTypeBelow search scope (Name.normalizeQuery query).length) =
          arguments.mapM (m.findType scope · search) := by
      refine mapM_congr fun a ha => ?_
      obtain ⟨hsub, hlt⟩ := Template.argument_sublist hform ha
      exact findTypeBelow_eq (length_normalizeQuery_lt hsplit hsub hlt) (Nat.lt_succ_self _)
    simp only [findMade, hform, Option.bind_eq_bind, Option.bind_some, harguments]

inductive QueryPart where
  | whole
  | name

/-- The way from queries to their names and from names to their arguments and heads comes to an end:
names are cut out of queries without dots, so nothing gets longer. -/
theorem query_induction {P : QueryPart → String → Prop}
    (whole : ∀ query, (∀ name markers,
      TypeQuery.split (Name.normalizeQuery query) = .ok (name, markers) → P .name name) →
      P .whole query)
    (name : ∀ name, (∀ base arguments, Template.split? name = some (base, arguments) →
      ∀ argument ∈ arguments, P .whole argument) →
      (∀ head tail, Path.splitAfterTemplate? name = some (head, tail) → P .name head) →
      P .name name)
    (part : QueryPart) (text : String) : P part text := by
  have hnames : ∀ (short : String → Prop), (∀ argument, short argument → P .whole argument) →
      ∀ (n : Nat) (text : String), text.length < n →
        (∀ part : String, part.toList.Sublist text.toList → part.length < text.length →
          short part) → P .name text := by
    intro short hshort n
    induction n with
    | zero => exact fun text h => absurd h (Nat.not_lt_zero _)
    | succ n ih =>
      intro text hn hparts
      refine name text (fun base arguments hform argument ha => ?_) fun head tail hcut => ?_
      · obtain ⟨hsub, hlt⟩ := Template.argument_sublist hform ha
        exact hshort argument (hparts argument hsub hlt)
      · obtain ⟨hsub, hlt⟩ := Template.head_sublist hcut
        exact ih head (by omega) fun part hpart hlength =>
          hparts part (hpart.trans hsub) (hlength.trans hlt)
  have hqueries : ∀ (n : Nat) (query : String), (Name.normalizeQuery query).length < n →
      P .whole query := by
    intro n
    induction n with
    | zero => exact fun query h => absurd h (Nat.not_lt_zero _)
    | succ n ih =>
      intro query hn
      refine whole query fun text markers hsplit => ?_
      refine hnames (fun part => (Name.normalizeQuery part).length < n) ih _ text
        (Nat.lt_succ_self _) fun part hsub hlt => ?_
      have hlength := length_normalizeQuery_lt hsplit hsub hlt
      omega
  have hall : ∀ query, P .whole query := fun query => hqueries _ query (Nat.lt_succ_self _)
  cases part with
  | whole => exact hall text
  | name =>
    exact hnames (fun _ => True) (fun argument _ => hall argument) _ text (Nat.lt_succ_self _)
      fun _ _ _ => trivial

/-- Reading is enough to see where a query, or the name in it, leads to. A name may also lead to a
member of a class that was made from a template, if `throughMembers` holds. -/
inductive Hits (m : Model) (scope : TypeId) (search : Search) (throughMembers : Prop) :
    QueryPart → String → TypeRef → Prop
  | query {query name : String} {markers : List Char} {ty : TypeRef}
      (nonEmpty : Name.normalizeQuery query ≠ "")
      (split : TypeQuery.split (Name.normalizeQuery query) = .ok (name, markers))
      (hit : Hits m scope search throughMembers .name name ty)
      (usable : (ty.isRaw && (m.node ty.base).isTemplate) = false) :
      Hits m scope search throughMembers .whole query (TypeQuery.applyMarkers ty markers)
  | asWritten {name : String} {ty : TypeRef}
      (found : m.findPlain scope name search true = some ty) :
      Hits m scope search throughMembers .name name ty
  | made {name base : String} {arguments : List String} {template id : TypeId}
      {types : List TypeRef} (notFound : m.findPlain scope name search true = none)
      (form : Template.split? name = some (base, arguments))
      (named : m.findTemplate scope base search = some template)
      (count : arguments.length = types.length)
      (resolved : ∀ entry ∈ arguments.zip types,
        Hits m scope search throughMembers .whole entry.1 entry.2)
      (listed : m.madeSpecialization? template types = some id) :
      Hits m scope search throughMembers .name name (.raw id)
  | member {name head tail : String} {outer ty : TypeRef} (allowed : throughMembers)
      (notFound : m.findPlain scope name search true = none)
      (form : Template.split? name = none)
      (cut : Path.splitAfterTemplate? name = some (head, tail))
      (front : Hits m scope search throughMembers .name head outer)
      (found : m.findPlain outer.base tail .local true = some ty) :
      Hits m scope search throughMembers .name name ty

theorem mapM_eq_ok {α β : Type} {f : α → ModelM β} {xs : List α} {ys : List β}
    (hlength : xs.length = ys.length) (h : ∀ entry ∈ xs.zip ys, f entry.1 m = .ok entry.2 m) :
    xs.mapM f m = .ok ys m := by
  induction xs generalizing ys with
  | nil =>
    obtain rfl := List.length_eq_zero_iff.mp hlength.symm
    rfl
  | cons a xs ih =>
    obtain ⟨b, ys, rfl⟩ := List.exists_cons_of_length_eq_add_one hlength.symm
    obtain ⟨hfirst, hrest⟩ := List.forall_mem_cons.mp h
    simp only [List.mapM_cons, ModelM.bind_apply, hfirst, ModelM.pure_apply,
      ih (Nat.succ.inj hlength) hrest]

theorem mapM_eq_some_iff {α β : Type} {f : α → Option β} {xs : List α} {ys : List β} :
    xs.mapM f = some ys ↔
      xs.length = ys.length ∧ ∀ entry ∈ xs.zip ys, f entry.1 = some entry.2 := by
  induction xs generalizing ys with
  | nil => cases ys <;> simp [eq_comm]
  | cons a xs ih =>
    simp only [List.mapM_cons, Option.bind_eq_bind, Option.bind_eq_some_iff, Option.pure_def,
      Option.some.injEq]
    constructor
    · rintro ⟨b, hfirst, ys, hrest, rfl⟩
      obtain ⟨hlength, hrest⟩ := ih.mp hrest
      exact ⟨congrArg (· + 1) hlength, List.forall_mem_cons.mpr ⟨hfirst, hrest⟩⟩
    · rintro ⟨hlength, h⟩
      obtain ⟨b, ys, rfl⟩ := List.exists_cons_of_length_eq_add_one hlength.symm
      obtain ⟨hfirst, hrest⟩ := List.forall_mem_cons.mp h
      exact ⟨b, hfirst, ys, ih.mpr ⟨Nat.succ.inj hlength, hrest⟩, rfl⟩

theorem concludeLookup_eq_ok (h : (ty.isRaw && (m.node ty.base).isTemplate) = false)
    (normal : String) :
    concludeLookup run scope normal name markers (some ty) m =
      .ok (TypeQuery.applyMarkers ty markers) m := by
  rw [concludeLookup]
  simp only [ModelM.bind_apply, ModelM.get_apply, h, Bool.false_eq_true, if_false,
    ModelM.pure_apply]

theorem Hits.lookupType_eq {throughMembers : Prop}
    (h : Hits m scope search throughMembers .whole query ty) :
    lookupType scope query search m = .ok ty m := by
  have hboth : ∀ {part text ty}, Hits m scope search throughMembers part text ty →
      match part with
      | .whole => lookupType scope text search m = .ok ty m
      | .name => resolve scope search text m = .ok (some ty) m := by
    intro part text ty h
    induction h with
    | query nonEmpty split hit usable ih =>
      dsimp only at ih ⊢
      rw [Model.lookupType_eq nonEmpty split, ModelM.bind_apply, ih]
      exact concludeLookup_eq_ok usable _
    | asWritten found => exact resolve_of_found found
    | made notFound form named count resolved listed ih =>
      dsimp only at ih ⊢
      exact resolve_of_made notFound form named (mapM_eq_ok count ih) listed
    | member allowed notFound form cut front found ih =>
      dsimp only at ih ⊢
      rw [resolve_of_member notFound form cut, ih]
      simp only [found]
  exact hboth h

/-- Reading lookup sees all hits but those in members of classes that were made. -/
theorem Hits.findType_eq (h : Hits m scope search False .whole query ty) :
    m.findType scope query search = some ty := by
  have hboth : ∀ {part text ty}, Hits m scope search False part text ty →
      match part with
      | .whole => m.findType scope text search = some ty
      | .name => (m.findPlain scope text search true).or (m.findMade scope search text) =
          some ty := by
    intro part text ty h
    induction h with
    | query nonEmpty split hit usable ih =>
      dsimp only at ih ⊢
      rw [Model.findType_eq split, ih, Option.map_some]
    | asWritten found => simp only [found, Option.some_or]
    | made notFound form named count resolved listed ih =>
      dsimp only at ih ⊢
      have hmap := (mapM_eq_some_iff (f := (m.findType scope · search))).mpr ⟨count, ih⟩
      simp only [notFound, Option.none_or, findMade, form, named, hmap, listed,
        Option.bind_eq_bind, Option.bind_some, Option.pure_def]
    | member allowed => exact allowed.elim
  exact hboth h

def HasArgument (query argument : String) : Prop :=
  ∃ name markers base arguments,
    TypeQuery.split (Name.normalizeQuery query) = .ok (name, markers) ∧
      Template.split? name = some (base, arguments) ∧ argument ∈ arguments

theorem node_mem_toList {id : TypeId} (hk : m.Knows id) : m.node id ∈ m.nodes.toList := by
  have hi : id.index < m.nodes.size := hk
  rw [node, Array.getD_eq_getD_getElem?, Array.getElem?_eq_getElem hi, Option.getD_some]
  exact Array.getElem_mem_toList hi

/-- No scope has a type or an alias without a name. -/
def NamesNonEmpty (m : Model) : Prop :=
  ∀ node ∈ m.nodes.toList, ∀ members ∈ node.scope?,
    members.types.get? "" = none ∧ members.typeAliases.get? "" = none

instance (m : Model) : Decidable m.NamesNonEmpty := by
  unfold NamesNonEmpty; infer_instance

theorem NamesNonEmpty.members (h : m.NamesNonEmpty) {s : TypeId} {a : Scope}
    (hs : m.scope? s = some a) : a.types.get? "" = none ∧ a.typeAliases.get? "" = none :=
  h _ (node_mem_toList (knows_of_scope hs)) a hs

theorem NamesNonEmpty.findType_eq_none (h : m.NamesNonEmpty)
    (hq : Name.normalizeQuery query = "") : m.findType scope query search = none := by
  have hdenotes : ∀ ty, ¬ m.Denotes "" ty := by
    intro ty hd
    cases hd with
    | type listed =>
      obtain ⟨members, hs, hg⟩ := type?_eq_some_iff.mp listed
      simp [(h.members hs).1] at hg
    | typeAlias hs listed => simp [(h.members hs).2] at listed
    | parts cut => cases cut
  have hplain : m.findPlain scope "" search true = none :=
    Option.eq_none_iff_forall_ne_some.mpr fun ty hty => hdenotes ty (denotes_of_findPlain hty)
  have hsplit : TypeQuery.split (Name.normalizeQuery query) = .ok ("", []) := by
    rw [hq]
    rfl
  have hform : Template.split? "" = none := rfl
  rw [Model.findType_eq hsplit, hplain]
  simp [findMade, hform]

/-- What reading lookup finds is a hit if neither it nor what the arguments lead to is a
template. -/
theorem hits_of_findType (hm : m.NamesNonEmpty)
    (h : m.findType scope query search = some ty) (hty : (m.node ty.base).isTemplate = false)
    (harguments : ∀ argument, TransGen HasArgument query argument → ∀ ty,
      m.findType scope argument search = some ty → (m.node ty.base).isTemplate = false) :
    Hits m scope search False .whole query ty := by
  let P : QueryPart → String → Prop
    | .whole, query => ∀ ty, m.findType scope query search = some ty →
      (m.node ty.base).isTemplate = false →
      (∀ argument, TransGen HasArgument query argument → ∀ ty,
        m.findType scope argument search = some ty → (m.node ty.base).isTemplate = false) →
      Hits m scope search False .whole query ty
    | .name, name => ∀ ty,
      (m.findPlain scope name search true).or (m.findMade scope search name) = some ty →
      (∀ base arguments, Template.split? name = some (base, arguments) →
        ∀ argument ∈ arguments, ∀ ty, m.findType scope argument search = some ty →
        (m.node ty.base).isTemplate = false ∧
        ∀ inner, TransGen HasArgument argument inner → ∀ ty,
          m.findType scope inner search = some ty → (m.node ty.base).isTemplate = false) →
      Hits m scope search False .name name ty
  suffices hP : P .whole query from hP ty h hty harguments
  refine query_induction (P := P) (fun query ih ty h hty harguments => ?_)
    (fun name ih _ ty h harguments => ?_) .whole query
  · have hq : Name.normalizeQuery query ≠ "" := fun hq => by
      rw [hm.findType_eq_none hq] at h
      cases h
    cases hsplit : TypeQuery.split (Name.normalizeQuery query) with
    | error failure =>
      rw [findType, findTypeBelow, hsplit] at h
      cases h
    | ok parts =>
      obtain ⟨name, markers⟩ := parts
      rw [findType_eq hsplit] at h
      obtain ⟨found, hfound, rfl⟩ := Option.map_eq_some_iff.mp h
      rw [base_applyMarkers] at hty
      refine .query hq hsplit (ih name markers hsplit found hfound ?_) (by simp [hty])
      intro base arguments hform argument ha ty hargument
      have hstep : HasArgument query argument := ⟨_, _, _, _, hsplit, hform, ha⟩
      exact ⟨harguments argument (.single hstep) ty hargument,
        fun inner hinner => harguments inner (.head hstep hinner)⟩
  · obtain hfound | ⟨hnone, hmade⟩ := Option.or_eq_some_iff.mp h
    · exact .asWritten hfound
    obtain ⟨⟨base, arguments⟩, hform, hmade⟩ := Option.bind_eq_some_iff.mp hmade
    obtain ⟨template, htemplate, hmade⟩ := Option.bind_eq_some_iff.mp hmade
    obtain ⟨types, htypes, hmade⟩ := Option.bind_eq_some_iff.mp hmade
    obtain ⟨id, hid, hty⟩ := Option.bind_eq_some_iff.mp hmade
    obtain rfl := Option.some.inj hty
    obtain ⟨hlength, hentries⟩ := mapM_eq_some_iff.mp htypes
    refine .made hnone hform htemplate hlength (fun entry he => ?_) hid
    have ha : entry.1 ∈ arguments := (List.of_mem_zip he).1
    obtain ⟨hplain, hinner⟩ :=
      harguments base arguments hform entry.1 ha entry.2 (hentries entry he)
    exact ih base arguments hform entry.1 ha entry.2 (hentries entry he) hplain hinner

/-- What reading lookup finds, full lookup finds as well, and it changes nothing: neither the nodes
nor the calls of the hook. Templates are the exception, which only reading lookup takes for
types. -/
theorem lookupType_of_findType (hm : m.NamesNonEmpty)
    (h : m.findType scope query search = some ty) (hty : (m.node ty.base).isTemplate = false)
    (harguments : ∀ argument, TransGen HasArgument query argument → ∀ ty,
      m.findType scope argument search = some ty → (m.node ty.base).isTemplate = false) :
    lookupType scope query search m = .ok ty m :=
  (hits_of_findType hm h hty harguments).lookupType_eq

/-- When the class `V<A>` was made, the query `V<::A>*` finds it, though it is spelled in another
way. -/
theorem lookupType_of_findType_made : ∃ m, Reachable .namesPlain m ∧
    m.findType .root "V<::A>*" .owners = some (.pointer (.raw ⟨5⟩)) ∧
    lookupType .root "V<::A>*" .owners m = .ok (.pointer (.raw ⟨5⟩)) m := by
  have hreachable := reachable_twoClasses [.lookupType .root "V<A>" .owners] fun action ha m => by
    obtain rfl := List.mem_singleton.mp ha
    trivial
  have hfind : (bare.afterAll (twoClasses ++ [.lookupType .root "V<A>" .owners])).findType .root
      "V<::A>*" .owners = some (.pointer (.raw ⟨5⟩)) := by decide +kernel
  refine ⟨_, hreachable, hfind, lookupType_of_findType (by decide +kernel) hfind (by decide +kernel)
    fun argument hargument ty hty => ?_⟩
  -- the only argument is the name of a class
  have hone : ∀ argument, HasArgument "V<::A>*" argument → argument = "::A" := by
    rintro argument ⟨_, _, _, _, hsplit, hform, ha⟩
    cases hsplit
    cases hform
    exact List.mem_singleton.mp ha
  have hnone : ∀ argument, ¬ HasArgument "::A" argument := by
    rintro argument ⟨_, _, _, _, hsplit, hform, -⟩
    cases hsplit
    cases hform
  obtain ⟨first, hfirst, hrest⟩ := TransGen.head'_iff.mp hargument
  obtain rfl := hone first hfirst
  obtain rfl | ⟨next, hnext, -⟩ := hrest.cases_head
  · have htype : (bare.afterAll (twoClasses ++ [.lookupType .root "V<A>" .owners])).findType .root
        "::A" .owners = some (.raw ⟨2⟩) := by decide +kernel
    obtain rfl := Option.some.inj (htype.symm.trans hty)
    decide +kernel
  · exact absurd hnext (hnone next)

end Model

end ApiModel
