import ApiModel.Proofs.Renewing
import ApiModel.Proofs.Succeeding

/-!
Lookups that are asked for again. Names are found as they are written before templates count, so a
class that the first lookup made may stand for another spelling from then on. As long as no other
class than the one that a name led to gets in the way of it, the second lookup leads where the first
one led, and reading is enough for it.
-/

namespace ApiModel

namespace Model

variable {tame throughMembers : Prop} {p : Policy} {m m' m₁ later : Model}
  {scope template : TypeId} {search : Search} {query name base : String} {arguments : List String}
  {markers : List Char} {ty : TypeRef} {types : List TypeRef}

/-- A name that a lookup resolved: where it was sought, on which model, and the type that it led
to. -/
structure Question where
  model : Model
  scope : TypeId
  search : Search
  name : String
  result : TypeRef

namespace Question

variable {q : Question}

def written (q : Question) (m : Model) : Option TypeRef := m.findPlain q.scope q.name q.search true

/-- No type that was added since, other than the result, is what the name leads to as it is
written. -/
structure KeptBy (q : Question) (tame : Prop) (later : Model) : Prop where
  added : ∀ id, ¬ q.model.Knows id → q.written later = some (.raw id) → q.result = .raw id
  /-- Other names than `Base<Args>` may pass through added types. If they were found as they are
  written, or begin at the root again behind an empty part, they are found as before or lead to the
  result. -/
  passing : ¬ PlainFront tame q.name →
    (q.written q.model = none → "" ∈ (Path.components q.name).tail) →
    q.written later = q.written q.model ∨ q.written later = some q.result

/-- For an `Outer<T>::Inner` that was not found as it is written, the later model has `Outer<T>` as
it is written, and no names with separators. -/
def ReadableOn (q : Question) (later : Model) : Prop :=
  q.written q.model = none → ∀ head tail, Path.splitAfterTemplate? q.name = some (head, tail) →
    Template.split? q.name = none →
    later.NamesUndivided ∧ ∃ outer, later.findPlain q.scope head q.search true = some (.raw outer)

theorem KeptBy.of_written (h : q.written later = some q.result) : q.KeptBy tame later :=
  ⟨fun _ _ hid => Option.some.inj (h.symm.trans hid), fun _ _ => .inr h⟩

/-- The name as it is written leads to the result if the question is kept, or nowhere as before. -/
theorem KeptBy.again (h : q.KeptBy tame later) (he : Grows tame q.model.size q.model later)
    (ht : q.model.IsTree) (ht' : later.IsTree) (hc : q.model.SelfContained)
    (hscope : q.model.Knows q.scope)
    (hresult : ∀ ty, q.written q.model = some ty → ty = q.result) :
    q.written later = some q.result ∨ q.written later = none ∧ q.written q.model = none := by
  have hsame (hsame : q.written later = q.written q.model) :
      q.written later = some q.result ∨ q.written later = none ∧ q.written q.model = none := by
    cases hwritten : q.written q.model with
    | none => exact .inr ⟨hsame.trans hwritten, rfl⟩
    | some ty => exact .inl (hsame.trans (hwritten.trans (congrArg some (hresult ty hwritten))))
  have hrenewed (hrenewed : q.model.Renewed (q.written q.model) (q.written later)) :
      q.written later = some q.result ∨ q.written later = none ∧ q.written q.model = none := by
    obtain hold | ⟨id, hid, hnew⟩ := hrenewed
    · exact hsame hold
    · rw [h.added id hid hnew]
      exact .inl hnew
  by_cases hfront : PlainFront tame q.name
  · exact hrenewed (he.findPlain_renewed ht ht' hc hfront hscope)
  · by_cases hmissed : q.written q.model = none → "" ∈ (Path.components q.name).tail
    · exact (h.passing hfront hmissed).elim hsame .inl
    · obtain ⟨hnone, hname⟩ := Classical.not_imp.mp hmissed
      refine hrenewed ?_
      rw [hnone]
      exact he.findPlain_missed ht ht' hc hname hscope hnone

end Question

/-- The names that a lookup resolves, as far as they count for the same lookup on a later model:
what is found there as it is written is not taken apart. -/
inductive Asks (later : Model) (scope : TypeId) (search : Search) :
    Model → QueryPart → String → Question → Prop
  | query {m : Model} {query name : String} {markers : List Char} {q : Question}
      (split : TypeQuery.split (Name.normalizeQuery query) = .ok (name, markers))
      (asks : Asks later scope search m .name name q) : Asks later scope search m .whole query q
  | itself {m m₁ : Model} {name : String} {ty : TypeRef}
      (resolved : resolve scope search name m = .ok (some ty) m₁) :
      Asks later scope search m .name name ⟨m, scope, search, name, ty⟩
  | template {m : Model} {name base : String} {arguments : List String} {template : TypeId}
      (notFound : m.findPlain scope name search true = none)
      (notFoundLater : later.findPlain scope name search true = none)
      (form : Template.split? name = some (base, arguments))
      (named : m.findTemplate scope base search = some template) :
      Asks later scope search m .name name
        ⟨m, scope, search, Name.normalizeQuery base, .raw template⟩
  /-- An argument is resolved when those in front of it are. -/
  | argument {m m₁ : Model} {name base argument : String} {front back : List String}
      {types : List TypeRef} {q : Question}
      (notFound : m.findPlain scope name search true = none)
      (notFoundLater : later.findPlain scope name search true = none)
      (form : Template.split? name = some (base, front ++ argument :: back))
      (resolved : front.mapM (lookupType scope · search) m = .ok types m₁)
      (asks : Asks later scope search m₁ .whole argument q) :
      Asks later scope search m .name name q
  | outer {m : Model} {name head tail : String} {q : Question}
      (notFound : m.findPlain scope name search true = none)
      (notFoundLater : later.findPlain scope name search true = none)
      (form : Template.split? name = none)
      (cut : Path.splitAfterTemplate? name = some (head, tail))
      (asks : Asks later scope search m .name head q) : Asks later scope search m .name name q
  /-- The rest of the name is sought in the type in front of it. -/
  | member {m m₁ : Model} {name head tail : String} {outer ty : TypeRef}
      (notFound : m.findPlain scope name search true = none)
      (notFoundLater : later.findPlain scope name search true = none)
      (form : Template.split? name = none)
      (cut : Path.splitAfterTemplate? name = some (head, tail))
      (resolved : resolve scope search head m = .ok (some outer) m₁)
      (found : m₁.findPlain outer.base tail .local true = some ty) :
      Asks later scope search m .name name ⟨m₁, outer.base, .local, tail, ty⟩

/-- The names that a lookup asks for are kept, those without brackets left out where templates are
tame. Where members of classes that were made do not count, they are readable as well. -/
def KeepsAsked (tame throughMembers : Prop) (m later : Model) (scope : TypeId) (search : Search)
    (part : QueryPart) (text : String) : Prop :=
  ∀ q, Asks later scope search m part text q → (tame → '<' ∈ q.name.toList) →
    q.KeptBy tame later ∧ (throughMembers ∨ q.ReadableOn later)

namespace Steady

/-- A name is found as it is written on the later model only where it led to before, and it was not
found as it is written before if it is not then. -/
theorem findPlain_again (h : Steady tame p m) (ht' : later.IsTree)
    (hok : resolve scope search name m = .ok (some ty) m₁) (he : Grows tame m.size m later)
    (hkept : KeepsAsked tame throughMembers m later scope search .name name) :
    later.findPlain scope name search true = some ty ∨
      later.findPlain scope name search true = none ∧
        m.findPlain scope name search true = none := by
  have hscope := knows_scope_of_resolve hok
  have hresult : ∀ found, m.findPlain scope name search true = some found → found = ty := by
    intro found hfound
    rw [resolve_of_found hfound] at hok
    cases hok
    rfl
  by_cases hname : tame → '<' ∈ name.toList
  · exact (hkept _ (.itself hok) hname).1.again he h.sound.isTree ht' h.closed hscope hresult
  · -- no class that was made bears a name without brackets
    obtain ⟨ht, hname⟩ := Classical.not_imp.mp hname
    rw [he.findPlain_eq ht h.closed h.sound.isTree hscope hname]
    cases hplain : m.findPlain scope name search true with
    | none => exact .inr ⟨rfl, rfl⟩
    | some found => exact .inl (congrArg some (hresult found hplain))

theorem findTemplate_again (h : Steady tame p m) (ht' : later.IsTree) (hk : m.Knows scope)
    (hnone : m.findPlain scope name search true = none)
    (hlater : later.findPlain scope name search true = none)
    (hform : Template.split? name = some (base, arguments))
    (htemplate : m.findTemplate scope base search = some template)
    (he : Grows tame m.size m later)
    (hkept : KeepsAsked tame throughMembers m later scope search .name name) :
    later.findTemplate scope base search = some template := by
  by_cases ht : tame
  · obtain ⟨_, -, hbase, -⟩ := Template.split?_eq_some hform
    rw [he.findTemplate_eq ht h.closed h.sound.isTree hk hbase]
    exact htemplate
  · have hkeeps := (hkept _ (.template hnone hlater hform htemplate) fun ht' => absurd ht' ht).1
    have hfound := findPlain_of_findTemplate htemplate
    obtain hagain | ⟨-, hmissed⟩ := hkeeps.again he h.sound.isTree ht' h.closed hk fun ty hty =>
      Option.some.inj (hty.symm.trans hfound)
    · have hsame := (he.identity template (h.knows_of_findTemplate htemplate)).isTemplate
      rw [Question.written] at hagain
      rw [findTemplate, hagain]
      dsimp only
      rw [if_pos (hsame.trans (isTemplate_of_findTemplate htemplate))]
    · rw [Question.written, hfound] at hmissed
      cases hmissed

theorem findMember_again {outer : TypeRef} {tail : String} (h : Steady tame p m)
    (ht' : later.IsTree) (houter : m.Knows outer.base)
    (hfound : m.findPlain outer.base tail .local true = some ty) (he : Grows tame m.size m later)
    (hkept : (tame → '<' ∈ tail.toList) →
      Question.KeptBy ⟨m, outer.base, .local, tail, ty⟩ tame later) :
    later.findPlain outer.base tail .local true = some ty := by
  by_cases htail : tame → '<' ∈ tail.toList
  · obtain hagain | ⟨-, hmissed⟩ := (hkept htail).again he h.sound.isTree ht' h.closed houter
      fun ty' hty' => Option.some.inj (hty'.symm.trans hfound)
    · exact hagain
    · exact absurd (hmissed.symm.trans hfound) nofun
  · obtain ⟨ht, htail⟩ := Classical.not_imp.mp htail
    rw [he.findPlain_eq ht h.closed h.sound.isTree houter htail]
    exact hfound

end Steady

/-- What the text led to on some model before, reading finds on the later one. -/
def Recurs (tame throughMembers : Prop) (p : Policy) (later : Model) (scope : TypeId)
    (search : Search) (part : QueryPart) (text : String) : Prop :=
  ∀ m m₁ ty, Steady tame p m →
    (match part with
      | .whole => lookupType scope text search m = .ok ty m₁
      | .name => resolve scope search text m = .ok (some ty) m₁) →
    m₁.journal = m.journal → Grows tame m₁.size m₁ later →
    KeepsAsked tame throughMembers m later scope search part text →
    Hits later scope search throughMembers part text ty

theorem recurs_whole
    (hname : ∀ name markers, TypeQuery.split (Name.normalizeQuery query) = .ok (name, markers) →
      Recurs tame throughMembers p later scope search .name name) :
    Recurs tame throughMembers p later scope search .whole query := by
  intro m m₁ ty h hok hquiet he hkept
  obtain ⟨hne, name, markers, found, hsplit, hresolve, rfl, husable⟩ := h.parts_of_lookup hok hquiet
  have hhit := hname name markers hsplit m m₁ found h hresolve hquiet he fun q hq =>
    hkept q (.query hsplit hq)
  refine .query hne hsplit hhit ?_
  rw [(he.identity found.base (h.knows_of_resolve hresolve)).isTemplate]
  exact husable

theorem Hits.eq_of_written {ty' : TypeRef} (h : Hits m scope search throughMembers .name name ty)
    (hty' : m.findPlain scope name search true = some ty') : ty = ty' := by
  cases h with
  | asWritten found => exact Option.some.inj (found.symm.trans hty')
  | made notFound | member _ notFound => exact absurd (notFound.symm.trans hty') nofun

theorem hits_made_again (h : Steady tame p m) (ht' : later.IsTree)
    (hok : resolve scope search name m = .ok (some ty) m₁) (hquiet : m₁.journal = m.journal)
    (he : Grows tame m₁.size m₁ later)
    (hkept : KeepsAsked tame throughMembers m later scope search .name name)
    (hnone : m.findPlain scope name search true = none)
    (hlater : later.findPlain scope name search true = none)
    (hform : Template.split? name = some (base, arguments))
    (hrecurs : ∀ argument ∈ arguments,
      Recurs tame throughMembers p later scope search .whole argument) :
    Hits later scope search throughMembers .name name ty := by
  obtain ⟨template, types, between, id, rfl, htemplate, htypes, he₁, hlisted⟩ :=
    h.instance_of_resolve hnone hform hok
  obtain ⟨h₁, hm₁⟩ := h.after_resolve hok
  obtain ⟨hbetween, hb⟩ := h.after_lookups htypes
  have hquietb := hb.quiet_of_quiet he₁ hquiet
  have heb : Grows tame between.size between later := he₁.trans (he.mono he₁.size_le)
  have htemplate' := h.findTemplate_again ht' (knows_scope_of_resolve hok) hnone hlater hform
    htemplate (hm₁.trans (he.mono hm₁.size_le)) hkept
  refine .made hlater hform htemplate' (mapM_eq_ok_split htypes).1 (fun entry hentry => ?_) ?_
  · obtain ⟨front, back, before, m₂, m₃, rfl, hbefore, h₂, hargument, hquiet', he'⟩ :=
      h.entry_of_lookups htypes hquietb hentry
    refine hrecurs entry.1 (by simp) m₂ m₃ entry.2 h₂ hargument hquiet'
      (he'.trans (heb.mono he'.size_le)) fun q hq => hkept q ?_
    exact .argument hnone hlater hform hbefore hq
  · -- the template and the arguments are written as they were when the class was entered
    have hk : between.Knows template := hb.knows (h.knows_of_findTemplate htemplate)
    have hid : m₁.Knows id := knows_of_owner (h₁.sound.isTree.listed hlisted).2
    rw [madeSpecialization?, heb.specializationScope_eq hk,
      heb.specializationName_eq hk (h.knows_of_lookups htypes hquietb)]
    exact he.listed hid hlisted

/-- A name behind template arguments leads to the member that it led to before, as long as members
of such a class count or the name can be read. -/
theorem hits_member_again (h : Steady tame p m) (ht' : later.IsTree) {head tail : String}
    (hok : resolve scope search name m = .ok (some ty) m₁) (hquiet : m₁.journal = m.journal)
    (he : Grows tame m₁.size m₁ later)
    (hkept : KeepsAsked tame throughMembers m later scope search .name name)
    (hnone : m.findPlain scope name search true = none)
    (hlater : later.findPlain scope name search true = none)
    (hform : Template.split? name = none)
    (hcut : Path.splitAfterTemplate? name = some (head, tail))
    (hrecurs : Recurs tame throughMembers p later scope search .name head) :
    Hits later scope search throughMembers .name name ty := by
  obtain ⟨outer, hhead, hfound⟩ := resolve_head hnone hform hcut hok
  have hfront := hrecurs m m₁ outer h hhead hquiet he fun q hq =>
    hkept q (.outer hnone hlater hform hcut hq)
  have hmember := (h.after_resolve hok).1.findMember_again ht' (h.knows_of_resolve hhead) hfound he
    fun hname => (hkept _ (.member hnone hlater hform hcut hhead hfound) hname).1
  have hbracket : '<' ∈ name.toList := by
    by_contra hname
    exact absurd (hcut.symm.trans (Path.splitAfterTemplate?_eq_none hname)) nofun
  obtain hallowed | hreadable := (hkept _ (.itself hok) fun _ => hbracket).2
  · exact .member hallowed hlater hform hcut hfront hmember
  · -- what stands in front is found as it is written, so that the whole name is
    obtain ⟨hundivided, id, hid⟩ := hreadable hnone head tail hcut hform
    obtain rfl := hfront.eq_of_written hid
    have hcontinues := continues_outer ht' hundivided hcut scope search true
    refine .asWritten (hcontinues.found ty ?_)
    rw [hid]
    exact hmember

/-- Whatever a text led to before, reading finds on a later model that keeps what was asked for. -/
theorem recurs (ht' : later.IsTree) (part : QueryPart) (text : String) :
    Recurs tame throughMembers p later scope search part text := by
  refine query_induction (fun query ih => recurs_whole ih) (fun name arguments head => ?_) part text
  intro m m₁ ty h hok hquiet he hkept
  have hm₁ := (h.after_resolve hok).2
  obtain hlater | ⟨hlater, hnone⟩ :=
    h.findPlain_again ht' hok (hm₁.trans (he.mono hm₁.size_le)) hkept
  · exact .asWritten hlater
  -- neither model finds the name as it is written, so both take it apart
  cases hform : Template.split? name with
  | some cut =>
    obtain ⟨base, texts⟩ := cut
    exact hits_made_again h ht' hok hquiet he hkept hnone hlater hform (arguments base texts hform)
  | none =>
    cases hcut : Path.splitAfterTemplate? name with
    | some parts =>
      obtain ⟨front, tail⟩ := parts
      exact hits_member_again h ht' hok hquiet he hkept hnone hlater hform hcut
        (head front tail hcut)
    | none =>
      have hnothing : resolve scope search name m = .ok none m :=
        resolve_of_neither hnone hform hcut
      rw [hnothing] at hok
      cases hok

theorem Asks.name_eq {q : Question} (h : Asks later scope search m .name name q)
    (hname : '<' ∉ name.toList) : q.name = name := by
  have hform : Template.split? name = none := Template.split?_eq_none hname
  have hcut : Path.splitAfterTemplate? name = none := Path.splitAfterTemplate?_eq_none hname
  cases h with
  | itself => rfl
  | template _ _ form => exact absurd (hform.symm.trans form) nofun
  | argument _ _ form => exact absurd (hform.symm.trans form) nofun
  | outer _ _ _ cut => exact absurd (hcut.symm.trans cut) nofun
  | member _ _ _ cut => exact absurd (hcut.symm.trans cut) nofun

theorem no_bracket_of_split (hquery : '<' ∉ query.toList)
    (hsplit : TypeQuery.split (Name.normalizeQuery query) = .ok (name, markers)) :
    '<' ∉ name.toList := fun hname =>
  Name.no_bracket_normalizeQuery hquery ((TypeQuery.split_eq_ok hsplit).subset hname)

theorem Asks.no_bracket {q : Question} (h : Asks later scope search m .whole query q)
    (hquery : '<' ∉ query.toList) : '<' ∉ q.name.toList := by
  obtain ⟨split, asks⟩ := h
  have hname := no_bracket_of_split hquery split
  rwa [asks.name_eq hname]

theorem Asks.of_split {q : Question} (h : Asks later scope search m .whole query q)
    (hsplit : TypeQuery.split (Name.normalizeQuery query) = .ok (name, markers)) :
    Asks later scope search m .name name q := by
  obtain ⟨split, asks⟩ := h
  obtain ⟨rfl, -⟩ := Prod.mk.inj (Except.ok.inj (hsplit.symm.trans split))
  exact asks

/-- `Base<A,B>` asks for itself, for its base, and for what its arguments ask for. -/
theorem Asks.template_cases {q : Question} (h : Asks later scope search m .name name q)
    (hform : Template.split? name = some (base, arguments)) :
    (∃ found m₁, q = ⟨m, scope, search, name, found⟩ ∧
      resolve scope search name m = .ok (some found) m₁) ∨
    (∃ template, q = ⟨m, scope, search, Name.normalizeQuery base, .raw template⟩) ∨
    ∃ argument ∈ arguments, ∃ m₁, Asks later scope search m₁ .whole argument q := by
  cases h with
  | itself resolved => exact .inl ⟨_, _, rfl, resolved⟩
  | template _ _ form =>
    obtain ⟨rfl, -⟩ := Prod.mk.inj (Option.some.inj (hform.symm.trans form))
    exact .inr (.inl ⟨_, rfl⟩)
  | argument _ _ form _ asks =>
    obtain ⟨-, rfl⟩ := Prod.mk.inj (Option.some.inj (hform.symm.trans form))
    exact .inr (.inr ⟨_, by simp, _, asks⟩)
  | outer _ _ form => exact absurd (hform.symm.trans form) nofun
  | member _ _ form => exact absurd (hform.symm.trans form) nofun

/-- The only name with brackets that `Base<A,B>` with plain arguments asks for is the whole. -/
theorem Asks.of_plain_arguments {q : Question} (h : Asks later scope search m .whole query q)
    (hsplit : TypeQuery.split (Name.normalizeQuery query) = .ok (name, markers))
    (hform : Template.split? name = some (base, arguments))
    (hplain : ∀ argument ∈ arguments, '<' ∉ argument.toList) (hname : '<' ∈ q.name.toList) :
    ∃ found m₁, q = ⟨m, scope, search, name, found⟩ ∧
      resolve scope search name m = .ok (some found) m₁ := by
  obtain hself | ⟨template, rfl⟩ | ⟨argument, hmem, _, asks⟩ :=
    (h.of_split hsplit).template_cases hform
  · exact hself
  · obtain ⟨_, -, hbase, -⟩ := Template.split?_eq_some hform
    exact absurd hname (Name.no_bracket_normalizeQuery hbase)
  · exact absurd hname (asks.no_bracket (hplain argument hmem))

namespace Steady

/-- The lookup of a name without brackets makes nothing. -/
theorem model_eq_of_plain (h : Steady tame p m) (hok : lookupType scope query search m = .ok ty m')
    (hquiet : m'.journal = m.journal) (hquery : '<' ∉ query.toList) : m' = m := by
  obtain ⟨-, name, markers, found, hsplit, hresolve, -⟩ := h.parts_of_lookup hok hquiet
  have hname := no_bracket_of_split hquery hsplit
  cases hplain : m.findPlain scope name search true with
  | some ty =>
    rw [resolve_of_found hplain] at hresolve
    cases hresolve
    rfl
  | none =>
    rw [resolve_of_neither hplain (Template.split?_eq_none hname)
      (Path.splitAfterTemplate?_eq_none hname)] at hresolve
    cases hresolve

theorem model_eq_of_plain_arguments (h : Steady tame p m)
    (hok : arguments.mapM (lookupType scope · search) m = .ok types m₁)
    (hquiet : m₁.journal = m.journal) (hplain : ∀ argument ∈ arguments, '<' ∉ argument.toList) :
    m₁ = m := by
  induction arguments generalizing m types with
  | nil =>
    cases hok
    rfl
  | cons argument arguments ih =>
    obtain ⟨hfirst, hrest⟩ := List.forall_mem_cons.mp hplain
    rw [List.mapM_cons, ModelM.bind_apply] at hok
    split at hok
    · next ty between hargument =>
      obtain ⟨hbetween, he⟩ := h.after_lookup hargument
      rw [ModelM.bind_apply] at hok
      split at hok
      · next types end' hmore =>
        cases hok
        obtain ⟨-, he'⟩ := hbetween.after_lookups hmore
        have hquiet' := he.quiet_of_quiet he' hquiet
        obtain rfl := h.model_eq_of_plain hargument hquiet' hfirst
        exact ih h hmore hquiet hrest
      · cases hok
    · cases hok

end Steady

/-- The query is `Base<A,B>` with arguments that have no brackets, and one class was made at
most. -/
def MakesOne (m m' : Model) (query : String) : Prop :=
  ∃ name markers base arguments,
    TypeQuery.split (Name.normalizeQuery query) = .ok (name, markers) ∧
      Template.split? name = some (base, arguments) ∧ '>' ∉ base.toList ∧
      (∀ argument ∈ arguments, '<' ∉ argument.toList) ∧ m'.size ≤ m.size + 1

def FindsWritten (m : Model) (scope : TypeId) (search : Search) (query : String) : Prop :=
  ∃ name markers ty, TypeQuery.split (Name.normalizeQuery query) = .ok (name, markers) ∧
    m.findPlain scope name search true = some ty

namespace Steady

/-- The class that was made cannot get in the way of anything else. -/
theorem keeps_of_makesOne (h : Steady True p m) (hok : lookupType scope query search m = .ok ty m')
    (hone : MakesOne m m' query) (hwritten : ¬ m.FindsWritten scope search query) :
    KeepsAsked True throughMembers m m' scope search .whole query := by
  intro q hq hname
  obtain ⟨name, markers, base, arguments, hsplit, hform, hbase, hplain, hsize⟩ := hone
  obtain ⟨hm', he⟩ := h.after_lookup hok
  obtain ⟨found, m₁, rfl, resolved⟩ := hq.of_plain_arguments hsplit hform hplain (hname trivial)
  refine ⟨⟨fun id hid hlater => ?_, fun hmore => absurd (plainFront_of_split? hform hbase) hmore⟩,
    .inr fun _ _ _ _ hnone => absurd (hform.symm.trans hnone) nofun⟩
  have hwritten : m.findPlain scope name search true = none :=
    Option.eq_none_iff_forall_ne_some.mpr fun ty hty => hwritten ⟨_, _, ty, hsplit, hty⟩
  obtain ⟨_, hresolve, -⟩ := h.resolve_of_lookup hok (he.silent trivial) hsplit
  rw [resolved] at hresolve
  cases hresolve
  obtain ⟨template, types, between, made, rfl, htemplate, htypes, -, hlisted⟩ :=
    h.instance_of_resolve hwritten hform resolved
  obtain rfl := h.model_eq_of_plain_arguments htypes
    ((h.after_lookups htypes).2.silent trivial) hplain
  have hid' : m'.Knows id := hm'.knows_of_findPlain hlater
  have hmade : ¬ between.Knows made := fun hk => by
    -- a class that had been made before would be given without making one
    have hbefore := he.type?_of_knows h.sound.isTree hm'.sound.isTree hk hlisted
    rw [resolve_of_made hwritten hform htemplate htypes hbefore] at resolved
    cases resolved
    exact hid hid'
  have hmade' : m'.Knows made := knows_of_owner (hm'.sound.isTree.listed hlisted).2
  have hindex : made.index = id.index := by
    simp only [Knows] at hid hid' hmade hmade'
    omega
  exact congrArg (fun i => TypeRef.raw ⟨i⟩) hindex

/-- When a lookup succeeded without the hook and what it asked for is kept, reading is enough for
the same lookup on the model that it led to. -/
theorem hits_again (h : Steady tame p m) (hok : lookupType scope query search m = .ok ty m')
    (hquiet : m'.journal = m.journal)
    (hkept : ¬ m.FindsWritten scope search query → ¬ (tame ∧ MakesOne m m' query) →
      KeepsAsked tame throughMembers m m' scope search .whole query) :
    Hits m' scope search throughMembers .whole query ty := by
  by_cases hwritten : m.FindsWritten scope search query
  · -- such a lookup changes nothing
    obtain ⟨_, _, ty, hsplit, hty⟩ := hwritten
    obtain ⟨found, hresolve, rfl, husable⟩ := h.resolve_of_lookup hok hquiet hsplit
    obtain ⟨hne, -⟩ := parts_of_lookupType hok
    rw [resolve_of_found hty] at hresolve
    cases hresolve
    exact .query hne hsplit (.asWritten hty) husable
  have hkept : KeepsAsked tame throughMembers m m' scope search .whole query := by
    by_cases hone : tame ∧ MakesOne m m' query
    · obtain ⟨htame, hone⟩ := hone
      obtain rfl : tame = True := eq_true htame
      exact h.keeps_of_makesOne hok hone hwritten
    · exact hkept hwritten hone
  have ht' := (h.after_lookup hok).1.sound.isTree
  exact recurs ht' .whole query m m' ty h hok hquiet (.refl m') hkept

end Steady

def stdModel : Model := bare.afterAll
  [.addType .root { entity := { name := "size_t" }, kind := .basic } true,
   .addType .root { entity := { name := "void" }, kind := .basic } true,
   .addType .root { entity := { name := "bool" }, kind := .basic } true,
   .addTemplate .root "std::vector" StdTypes.vector,
   .addTemplate .root "std::map" StdTypes.map,
   .addType .root (declaration .classType "" "A") true,
   .addType .root (declaration .classType "n" "A") true]

theorem reachable_stdModel_of (p : Policy) : Reachable p stdModel := by
  have hbasic : ∀ name m, p.Allows name → Action.Admissible p m
      (.addType .root { entity := { name }, kind := .basic } true) := fun name m ha =>
    ⟨⟨rfl, nofun, rfl⟩, ha, fun _ => List.not_mem_nil, nofun, rfl, nofun⟩
  refine reachable_bare.afterAll ?_
  simp only [List.forall_mem_cons, List.not_mem_nil, false_imp_iff, implies_true, and_true]
  exact ⟨fun m => hbasic "size_t" m fun _ => by decide, fun m => hbasic "void" m fun _ => by decide,
    fun m => hbasic "bool" m fun _ => by decide,
    fun _ => ⟨fun _ => by decide, StdTypes.within_vector⟩,
    fun _ => ⟨fun _ => by decide, StdTypes.within_map⟩,
    fun _ => isFresh_declaration (fun _ => by decide) fun _ => by decide,
    fun _ => isFresh_declaration (fun _ => by decide) fun _ => by decide⟩

theorem reachable_stdModel : Reachable .free stdModel := reachable_stdModel_of .free

theorem specializer_stdModel (id : TypeId) (specializer : Specializer)
    (h : (stdModel.node id).specializer? = some specializer) :
    specializer = StdTypes.vector ∨ specializer = StdTypes.map := by
  have hall : stdModel.nodes.toList.map TypeNode.specializer? =
      [none, none, none, none, none, some StdTypes.vector, some StdTypes.map, none, none,
        none] := rfl
  have hk : stdModel.Knows id := by
    by_contra hk
    rw [node_of_not_knows hk] at h
    cases h
  have hmem := List.mem_map_of_mem (f := TypeNode.specializer?) (node_mem_toList hk)
  rw [hall, h] at hmem
  simpa using hmem

def leads (m : Model) (scope : TypeId) (query : String) (ty : TypeRef) (kind : Model → Bool) :
    Bool :=
  match lookupType scope query .owners m with
  | .ok ty' m' => ty' = ty && kind m'
  | .error _ _ => false

theorem exists_of_leads {kind : Model → Bool} (h : m.leads scope query ty kind = true) :
    ∃ m', lookupType scope query .owners m = .ok ty m' ∧ kind m' = true := by
  unfold leads at h
  split at h
  · next ty' m' hok =>
    obtain ⟨rfl, hkind⟩ := by simpa using h
    exact ⟨m', hok, hkind⟩
  · cases h

/-- The vectors for the class `A` of `n` bear other names than in the query, so that nothing is
found as it is written afterwards either. -/
theorem exists_vectors : ∃ m',
    lookupType ⟨8⟩ "std::vector<std::vector<A>>" .owners stdModel = .ok (.raw ⟨11⟩) m' ∧
    m'.size = stdModel.size + 2 ∧ m'.journal = stdModel.journal ∧
    m'.findPlain ⟨8⟩ "std::vector<std::vector<A>>" .owners true = none ∧
    m'.findPlain ⟨8⟩ "std::vector<A>" .owners true = none := by
  have h : stdModel.leads ⟨8⟩ "std::vector<std::vector<A>>" (.raw ⟨11⟩) fun m' =>
      m'.size = stdModel.size + 2 ∧ m'.journal = stdModel.journal ∧
        m'.findPlain ⟨8⟩ "std::vector<std::vector<A>>" .owners true = none ∧
        m'.findPlain ⟨8⟩ "std::vector<A>" .owners true = none := by decide +kernel
  obtain ⟨m', hok, hm'⟩ := exists_of_leads h
  exact ⟨m', hok, of_decide_eq_true hm'⟩

theorem keeps_vectors
    (hnone : later.findPlain ⟨8⟩ "std::vector<std::vector<A>>" .owners true = none)
    (hnone' : later.findPlain ⟨8⟩ "std::vector<A>" .owners true = none) :
    KeepsAsked True throughMembers stdModel later ⟨8⟩ .owners .whole
      "std::vector<std::vector<A>>" := by
  have hform : Template.split? "std::vector<std::vector<A>>" =
      some ("std::vector", ["std::vector<A>"]) := by rfl
  have hform' : Template.split? "std::vector<A>" = some ("std::vector", ["A"]) := by rfl
  have hbase : '>' ∉ "std::vector".toList := by decide
  intro q hq hname
  have hkeeps {m : Model} {name : String} {ty : TypeRef} {base : String} {arguments : List String}
      (hnone : later.findPlain ⟨8⟩ name .owners true = none)
      (hform : Template.split? name = some (base, arguments)) (hbase : '>' ∉ base.toList) :
      Question.KeptBy ⟨m, ⟨8⟩, .owners, name, ty⟩ True later ∧
        (throughMembers ∨ Question.ReadableOn ⟨m, ⟨8⟩, .owners, name, ty⟩ later) :=
    ⟨⟨fun _ _ hid => absurd (hnone.symm.trans hid) nofun,
      fun hmore => absurd (plainFront_of_split? hform hbase) hmore⟩,
      .inr fun _ _ _ _ hnone => absurd (hform.symm.trans hnone) nofun⟩
  have hsplit : TypeQuery.split (Name.normalizeQuery "std::vector<std::vector<A>>") =
      .ok ("std::vector<std::vector<A>>", []) := by rfl
  obtain ⟨_, _, rfl, -⟩ | ⟨template, rfl⟩ | ⟨argument, hmem, _, asks⟩ :=
    (hq.of_split hsplit).template_cases hform
  · exact hkeeps hnone hform hbase
  · exact absurd (hname trivial) (Name.no_bracket_normalizeQuery (by decide))
  · obtain rfl := List.mem_singleton.mp hmem
    obtain ⟨_, _, rfl, -⟩ := asks.of_plain_arguments rfl hform' (by decide) (hname trivial)
    exact hkeeps hnone' hform' hbase

/-- For the query `std::map<std::vector<A>,std::vector<::A>>` the vectors of `n::A` and of `A` are
made, the second of them under the name `vector<A>`. That is what the first argument of the query is
found as the second time, when another map is made. -/
theorem exists_map : ∃ m', lookupType ⟨8⟩ "std::map<std::vector<A>,std::vector<::A>>" .owners
      stdModel = .ok (.raw ⟨12⟩) m' ∧ m'.journal = stdModel.journal ∧
    m'.findType ⟨8⟩ "std::map<std::vector<A>,std::vector<::A>>" .owners = none ∧
    ∃ m'', lookupType ⟨8⟩ "std::map<std::vector<A>,std::vector<::A>>" .owners m' =
      .ok (.raw ⟨14⟩) m'' ∧ m''.size = m'.size + 2 := by
  have h : stdModel.leads ⟨8⟩ "std::map<std::vector<A>,std::vector<::A>>" (.raw ⟨12⟩) fun m' =>
      m'.journal = stdModel.journal ∧
        m'.findType ⟨8⟩ "std::map<std::vector<A>,std::vector<::A>>" .owners = none ∧
        m'.leads ⟨8⟩ "std::map<std::vector<A>,std::vector<::A>>" (.raw ⟨14⟩) fun m'' =>
          m''.size = m'.size + 2 := by decide +kernel
  obtain ⟨m', hok, hm'⟩ := exists_of_leads h
  obtain ⟨hquiet, hread, hagain⟩ := of_decide_eq_true hm'
  obtain ⟨m'', hok', hm''⟩ := exists_of_leads hagain
  exact ⟨m', hok, hquiet, hread, m'', hok', of_decide_eq_true hm''⟩

/-- Where no hook is installed and all templates are those of the standard library, the same lookup
a second time gives the same type and changes nothing, as long as no class gets in the way that the
lookup made for something else. If the query is found as it is written, or its arguments have no
brackets and one class was made at most, nothing is asked of it. If not, none of the names with
brackets in it that have to be resolved leads as it is written to a class made since, other than the
one that it led to; and a member of such a class that was found as it is written is still found. -/
theorem Reachable.lookupType_again (h : Reachable p m) (hc : m.SelfContained)
    (hhook : m.hook = none)
    (hstd : ∀ id specializer, (m.node id).specializer? = some specializer →
      specializer = StdTypes.vector ∨ specializer = StdTypes.map)
    (hok : lookupType scope query search m = .ok ty m')
    (hkept : ¬ m.FindsWritten scope search query → ¬ MakesOne m m' query →
      ∀ q, Asks m' scope search m .whole query q → '<' ∈ q.name.toList → q.KeptBy True m') :
    lookupType scope query search m' = .ok ty m' := by
  have hm : Steady True p m := ⟨h.sound, hc, fun _ => StdTypes.tame_model hhook hstd⟩
  have hquiet := (hm.after_lookup hok).2.silent trivial
  have hhits : Hits m' scope search True .whole query ty :=
    hm.hits_again hok hquiet fun hwritten hmore q hq hname =>
      ⟨hkept hwritten (fun hone => hmore ⟨trivial, hone⟩) q hq (hname trivial), .inl trivial⟩
  exact hhits.lookupType_eq

/-- The second lookup of `std::vector<std::vector<A>>` from `n` finds the classes that the first one
made. -/
theorem lookupType_again_of_vectors : ∃ ty m', m'.size = stdModel.size + 2 ∧
    lookupType ⟨8⟩ "std::vector<std::vector<A>>" .owners stdModel = .ok ty m' ∧
    lookupType ⟨8⟩ "std::vector<std::vector<A>>" .owners m' = .ok ty m' := by
  obtain ⟨m', hok, hsize, -, hnone, hnone'⟩ := exists_vectors
  have hkeeps : KeepsAsked True True stdModel m' ⟨8⟩ .owners .whole "std::vector<std::vector<A>>" :=
    keeps_vectors hnone hnone'
  exact ⟨_, m', hsize, hok, reachable_stdModel.lookupType_again (by decide +kernel) rfl
    specializer_stdModel hok fun _ _ q hq hname => (hkeeps q hq fun _ => hname).1⟩

/-- The second lookup of the map makes another class, and a vector of its keys. -/
theorem lookupType_differs_again : ∃ m ty m' ty' m'', Reachable .free m ∧ m.SelfContained ∧
    m.hook = none ∧
    (∀ id specializer, (m.node id).specializer? = some specializer →
      specializer = StdTypes.vector ∨ specializer = StdTypes.map) ∧
    lookupType ⟨8⟩ "std::map<std::vector<A>,std::vector<::A>>" .owners m = .ok ty m' ∧
    lookupType ⟨8⟩ "std::map<std::vector<A>,std::vector<::A>>" .owners m' = .ok ty' m'' ∧
    ty'.base ≠ ty.base ∧ m''.size ≠ m'.size := by
  obtain ⟨m', hok, -, -, m'', hok', hsize⟩ := exists_map
  exact ⟨stdModel, _, m', _, m'', reachable_stdModel, by decide +kernel, rfl, specializer_stdModel,
    hok, hok', by decide, by omega⟩

/-- What was looked up without the hook, reading finds afterwards, as long as no type gets in the
way that was added for something else, and the `Outer<T>` in front of a member that was not found as
it is written is. Names without brackets need not be checked in tame models. -/
theorem Reachable.findType_afterwards (h : Reachable p m) (hc : m.SelfContained)
    (hok : lookupType scope query search m = .ok ty m') (hquiet : m'.journal = m.journal)
    (hkept : ¬ m.FindsWritten scope search query → ¬ (m.Tame ∧ MakesOne m m' query) →
      ∀ q, Asks m' scope search m .whole query q → (m.Tame → '<' ∈ q.name.toList) →
        q.KeptBy m.Tame m' ∧ q.ReadableOn m') :
    m'.findType scope query search = some ty := by
  have hm : Steady m.Tame p m := ⟨h.sound, hc, id⟩
  have hhits : Hits m' scope search False .whole query ty :=
    hm.hits_again hok hquiet fun hwritten hmore q hq hname =>
      (hkept hwritten hmore q hq hname).imp_right .inr
  exact hhits.findType_eq

/-- The template `lib::Box`, whose classes have a class `Iterator`, and the class `A`. -/
def boxModel : Model := bare.afterAll
  [.addTemplate .root "Box" ⟨"Box", fun id _ => .declare id .classType "Iterator" fun _ => .finish⟩,
   .addType .root (declaration .classType "" "A") true]

theorem reachable_boxModel : Reachable .free boxModel := by
  refine reachable_bare.afterAll ?_
  simp only [List.forall_mem_cons, List.not_mem_nil, false_imp_iff, implies_true, and_true]
  exact ⟨fun _ => ⟨nofun, fun _ _ => ⟨nofun, fun _ => trivial⟩⟩,
    fun _ => isFresh_declaration nofun nofun⟩

theorem exists_iterator : ∃ m', lookupType .root "Box<A>::Iterator" .owners boxModel =
      .ok (.raw ⟨4⟩) m' ∧ m'.journal = boxModel.journal ∧ m'.NamesUndivided ∧
    m'.findPlain .root "Box<A>::Iterator" .owners true = some (.raw ⟨4⟩) ∧
    m'.findPlain .root "Box<A>" .owners true = some (.raw ⟨3⟩) := by
  have h : boxModel.leads .root "Box<A>::Iterator" (.raw ⟨4⟩) fun m' =>
      m'.journal = boxModel.journal ∧ (∀ node ∈ m'.nodes.toList, ∀ a ∈ node.scope?,
        (∀ name ∈ a.types.keys, Path.splitFirst? name = none) ∧
          ∀ name ∈ a.typeAliases.keys, Path.splitFirst? name = none) ∧
        m'.findPlain .root "Box<A>::Iterator" .owners true = some (.raw ⟨4⟩) ∧
        m'.findPlain .root "Box<A>" .owners true = some (.raw ⟨3⟩) := by decide +kernel
  obtain ⟨m', hok, hm'⟩ := exists_of_leads h
  obtain ⟨hquiet, hnames, hfound⟩ := of_decide_eq_true hm'
  exact ⟨m', hok, hquiet, fun _ _ hkey => name_of_forall hnames hkey, hfound⟩

/-- After the lookup of `std::vector<std::vector<A>>` from `n` reading finds the class, and after
that of `Box<A>::Iterator` from the root the class in the one that was made. -/
theorem findType_afterwards_of_made :
    (∃ ty m', m'.size = stdModel.size + 2 ∧ m'.journal = stdModel.journal ∧
      lookupType ⟨8⟩ "std::vector<std::vector<A>>" .owners stdModel = .ok ty m' ∧
      m'.findType ⟨8⟩ "std::vector<std::vector<A>>" .owners = some ty) ∧
    ∃ ty m', m'.journal = boxModel.journal ∧
      lookupType .root "Box<A>::Iterator" .owners boxModel = .ok ty m' ∧
      m'.findType .root "Box<A>::Iterator" .owners = some ty := by
  constructor
  · obtain ⟨m', hok, hsize, hquiet, hnone, hnone'⟩ := exists_vectors
    have htame : stdModel.Tame := StdTypes.tame_model rfl specializer_stdModel
    have hkeeps : KeepsAsked True False stdModel m' ⟨8⟩ .owners .whole
        "std::vector<std::vector<A>>" := keeps_vectors hnone hnone'
    refine ⟨_, m', hsize, hquiet, hok, reachable_stdModel.findType_afterwards (by decide +kernel)
      hok hquiet fun _ _ q hq hname => ?_⟩
    rw [eq_true htame]
    exact (hkeeps q hq fun _ => hname htame).imp_right (·.resolve_left id)
  · obtain ⟨m', hok, hquiet, hundivided, hwritten, houter⟩ := exists_iterator
    have hsteady : Steady False .free boxModel :=
      ⟨reachable_boxModel.sound, by decide +kernel, False.elim⟩
    have hname : TypeQuery.split (Name.normalizeQuery "Box<A>::Iterator") =
        .ok ("Box<A>::Iterator", []) := by rfl
    have houter' : Path.splitAfterTemplate? "Box<A>::Iterator" = some ("Box<A>", "Iterator") := by
      rfl
    obtain ⟨found, hresolve, hty, -⟩ := hsteady.resolve_of_lookup hok hquiet hname
    refine ⟨_, m', hquiet, hok, reachable_boxModel.findType_afterwards (by decide +kernel)
      hok hquiet fun _ _ q hq _ => ?_⟩
    cases hq.of_split hname with
    | itself resolved =>
      rw [resolved] at hresolve
      cases hresolve
      refine ⟨.of_written (hwritten.trans (congrArg some hty)), fun _ head tail hcut _ => ?_⟩
      obtain ⟨rfl, -⟩ := Prod.mk.inj (Option.some.inj (houter'.symm.trans hcut))
      exact ⟨hundivided, _, houter⟩
    | template _ later => exact absurd (later.symm.trans hwritten) nofun
    | argument _ later => exact absurd (later.symm.trans hwritten) nofun
    | outer _ later => exact absurd (later.symm.trans hwritten) nofun
    | member _ later => exact absurd (later.symm.trans hwritten) nofun

/-- After the lookup of the map reading takes its first argument for the vector of `A`, and no map
of two such vectors was made. And when a class was added to the vector of `n::A`, full lookup goes
through `std::vector<A>` to it from `n`, and reading does not. -/
theorem findType_misses_afterwards :
    (∃ m ty m', Reachable .free m ∧ m.SelfContained ∧ m.hook = none ∧ m'.journal = m.journal ∧
      lookupType ⟨8⟩ "std::map<std::vector<A>,std::vector<::A>>" .owners m = .ok ty m' ∧
      m'.findType ⟨8⟩ "std::map<std::vector<A>,std::vector<::A>>" .owners = none) ∧
    ∃ m ty m', Reachable .free m ∧ m.SelfContained ∧ m.hook = none ∧ m'.journal = m.journal ∧
      lookupType ⟨8⟩ "std::vector<A>::Inner" .owners m = .ok ty m' ∧
      m'.findType ⟨8⟩ "std::vector<A>::Inner" .owners = none := by
  constructor
  · obtain ⟨m', hok, hquiet, hread, -⟩ := exists_map
    exact ⟨stdModel, _, m', reachable_stdModel, by decide +kernel, rfl, hquiet, hok, hread⟩
  · let m := stdModel.afterAll [.lookupType ⟨8⟩ "std::vector<A>" .owners,
      .addType ⟨10⟩ (declaration .classType "" "Inner") true]
    have hm : Reachable .free m := by
      refine reachable_stdModel.afterAll ?_
      simp only [List.forall_mem_cons, List.not_mem_nil, false_imp_iff, implies_true, and_true]
      exact ⟨fun _ => trivial, fun _ => isFresh_declaration nofun nofun⟩
    have h : m.leads ⟨8⟩ "std::vector<A>::Inner" (.raw ⟨11⟩) fun m' =>
        m'.journal = m.journal ∧
          m'.findType ⟨8⟩ "std::vector<A>::Inner" .owners = none := by decide +kernel
    obtain ⟨m', hok, hm'⟩ := exists_of_leads h
    obtain ⟨hquiet, hread⟩ := of_decide_eq_true hm'
    exact ⟨m, _, m', hm, by decide +kernel, by decide +kernel, hquiet, hok, hread⟩

end Model

end ApiModel
