import ApiModel.Proofs.PlainNames

/-!
Lookups that succeeded: what they resolved on the way, that the types they came by are nodes of the
model, and that these are written as before when later lookups have extended it.
-/

namespace ApiModel

theorem TypeRef.render_congr {spelling spelling' : TypeId → String} {ty : TypeRef}
    (h : spelling ty.base = spelling' ty.base) : ty.render spelling = ty.render spelling' := by
  induction ty with
  | raw id => exact h
  | pointer inner ih | reference inner ih => rw [render, render, ih h]
  | const inner ih => rw [render, render, ih h]

namespace Model

variable {tame : Prop} {p : Policy} {n : Nat} {m m' m₁ later : Model} {scope template : TypeId}
  {search : Search} {query name base : String} {markers : List Char} {arguments : List String}
  {ty : TypeRef} {types : List TypeRef} {run : ScriptRunner}

/-- A list is read entry by entry, each from where those in front of it lead. -/
theorem mapM_eq_ok_split {α β : Type} {f : α → ModelM β} {xs : List α} {ys : List β}
    (h : xs.mapM f m = .ok ys m') : xs.length = ys.length ∧ ∀ entry ∈ xs.zip ys,
      ∃ front back before behind m₁ m₂, xs = front ++ entry.1 :: back ∧
        front.mapM f m = .ok before m₁ ∧ f entry.1 m₁ = .ok entry.2 m₂ ∧
        back.mapM f m₂ = .ok behind m' := by
  induction xs generalizing ys m with
  | nil =>
    cases h
    exact ⟨rfl, nofun⟩
  | cons a xs ih =>
    rw [List.mapM_cons, ModelM.bind_apply] at h
    split at h
    next b m₁ hfirst =>
      rw [ModelM.bind_apply] at h
      split at h
      next ys m₂ hrest =>
        cases h
        obtain ⟨hlength, hentries⟩ := ih hrest
        refine ⟨congrArg (· + 1) hlength, List.forall_mem_cons.mpr ⟨?_, fun entry he => ?_⟩⟩
        · exact ⟨[], xs, [], ys, m, m₁, rfl, rfl, hfirst, hrest⟩
        · obtain ⟨front, back, before, behind, m₃, m₄, rfl, hbefore, hentry, hbehind⟩ :=
            hentries entry he
          refine ⟨a :: front, back, b :: before, behind, m₃, m₄, rfl, ?_, hentry, hbehind⟩
          simp only [List.mapM_cons, ModelM.bind_apply, hfirst, hbefore, ModelM.pure_apply]
      · cases h
    · cases h

theorem concludeLookup_some {normal : String} {found : TypeRef}
    (h : concludeLookup run scope normal name markers (some found) m = .ok ty m') :
    ty = TypeQuery.applyMarkers found markers ∧
      (found.isRaw && (m.node found.base).isTemplate) = false := by
  cases husable : found.isRaw && (m.node found.base).isTemplate with
  | false =>
    rw [concludeLookup_eq_ok husable] at h
    cases h
    exact ⟨rfl, rfl⟩
  | true =>
    rw [concludeLookup] at h
    simp only [ModelM.bind_apply, ModelM.pure_apply, ModelM.get_apply, husable, if_true,
      ModelM.throw_apply] at h
    cases h

/-- What follows the arguments of a template name a member of the class. -/
theorem resolve_head {head tail : String} (h : m.findPlain scope name search true = none)
    (hform : Template.split? name = none)
    (hcut : Path.splitAfterTemplate? name = some (head, tail))
    (hok : resolve scope search name m = .ok (some ty) m₁) :
    ∃ outer, resolve scope search head m = .ok (some outer) m₁ ∧
      m₁.findPlain outer.base tail .local true = some ty := by
  rw [resolve_of_member h hform hcut] at hok
  split at hok
  · next outer m' hhead =>
    injection hok with hfound hmodel
    subst hmodel
    exact ⟨outer, hhead, hfound⟩
  · cases hok
  · cases hok

theorem resolve_of_not_knows (h : ¬ m.Knows scope) : resolve scope search name m = .ok none m := by
  have hscope : m.scope? scope = none := by
    rw [scope?, node_of_not_knows h]
    rfl
  have hplain : ∀ name, m.findPlain scope name search true = none := fun name => by
    rw [findPlain, findBelow]
    unfold findFrom
    rw [if_pos (Option.isNone_iff_eq_none.mpr hscope)]
  suffices hall : ∀ part name, part = QueryPart.name → resolve scope search name m = .ok none m from
    hall .name name rfl
  refine query_induction (fun _ _ hpart => by cases hpart) fun name _ ih _ => ?_
  cases hform : Template.split? name with
  | some cut =>
    obtain ⟨base, arguments⟩ := cut
    have hnone : m.findTemplate scope base search = none := by rw [findTemplate, hplain]
    rw [resolve_of_template (hplain name) hform, instantiate, ModelM.bind_apply, ModelM.get_apply]
    simp only [hnone, ModelM.pure_apply]
  | none =>
    cases hcut : Path.splitAfterTemplate? name with
    | none => exact resolve_of_neither (hplain name) hform hcut
    | some parts =>
      obtain ⟨head, tail⟩ := parts
      rw [resolve_of_member (hplain name) hform hcut, ih head tail hcut rfl]

theorem knows_scope_of_resolve (hok : resolve scope search name m = .ok (some ty) m₁) :
    m.Knows scope := by
  by_contra hk
  rw [resolve_of_not_knows hk] at hok
  cases hok

theorem findPlain_of_findTemplate (h : m.findTemplate scope name search = some template) :
    m.findPlain scope (Name.normalizeQuery name) search true = some (.raw template) := by
  unfold findTemplate at h
  split at h
  · next id hid =>
    split at h
    · cases h
      exact hid
    · cases h
  · cases h

theorem runs_nestedScripts : Runs p nestedScripts :=
  runs_script fun scope name search _ hs => does_lookupTypeTo _ scope name search hs

theorem does_resolve (scope : TypeId) (search : Search) (name : String) (hs : Sound p m) :
    Does p m (resolve scope search name) fun _ _ => True :=
  does_resolveBelow runs_nestedScripts scope search
    (fun scope text search _ hs => does_lookupType scope text search hs) _ name hs

/-- Models in which lookups can be followed: what is reachable, typedefs and used namespaces are
nodes, and the model is tame if it has to be. -/
structure Steady (tame : Prop) (p : Policy) (m : Model) : Prop where
  sound : Sound p m
  closed : m.SelfContained
  tame : tame → m.Tame

namespace Steady

theorem ready (h : Steady tame p m) : Ready tame m.size m :=
  ⟨le_rfl, h.sound.isTree.knows_root, h.tame⟩

theorem of_ok {α : Type} {x : ModelM α} {a : α} (h : Steady tame p m)
    (hd : Does p m x fun _ _ => True) (hk : Keeps tame m.size m x fun _ _ => True)
    (hok : x m = .ok a m₁) : Steady tame p m₁ ∧ Grows tame m.size m m₁ := by
  have he := hk.grows_of_ok hok
  exact ⟨⟨(hd.run_of_ok hok).sound h.sound, h.closed.grows he,
    fun ht => he.tame ht (h.tame ht)⟩, he⟩

theorem after_lookup (h : Steady tame p m) (hok : lookupType scope query search m = .ok ty m₁) :
    Steady tame p m₁ ∧ Grows tame m.size m m₁ :=
  h.of_ok (does_lookupType scope query search h.sound) (keeps_lookupType scope query search h.ready)
    hok

theorem after_resolve {found : Option TypeRef} (h : Steady tame p m)
    (hok : resolve scope search name m = .ok found m₁) :
    Steady tame p m₁ ∧ Grows tame m.size m m₁ :=
  h.of_ok (does_resolve scope search name h.sound) (keeps_resolve scope search name h.ready) hok

theorem after_lookups (h : Steady tame p m)
    (hok : arguments.mapM (lookupType scope · search) m = .ok types m₁) :
    Steady tame p m₁ ∧ Grows tame m.size m m₁ :=
  h.of_ok (does_mapM h.sound fun text _ _ hs => does_lookupType scope text search hs)
    (keeps_mapM h.ready fun text _ _ hr => keeps_lookupType scope text search hr) hok

theorem knows_of_findPlain {follow : Bool} (h : Steady tame p m)
    (hty : m.findPlain scope name search follow = some ty) : m.Knows ty.base :=
  (denotes_of_findPlain hty).knows h.sound.isTree h.closed

theorem knows_of_findTemplate (h : Steady tame p m)
    (ht : m.findTemplate scope name search = some template) : m.Knows template :=
  h.knows_of_findPlain (findPlain_of_findTemplate ht)

/-- A name with template arguments leads to the class that is listed under their written form. -/
theorem instance_of_resolve (h : Steady tame p m)
    (hnone : m.findPlain scope name search true = none)
    (hform : Template.split? name = some (base, arguments))
    (hok : resolve scope search name m = .ok (some ty) m₁) :
    ∃ template types between id, ty = .raw id ∧
      m.findTemplate scope base search = some template ∧
      arguments.mapM (lookupType scope · search) m = .ok types between ∧
      Grows tame between.size between m₁ ∧
      m₁.type? (between.specializationScope template)
        (between.specializationName template types) = some id := by
  rw [resolve_of_template hnone hform] at hok
  exact (keeps_instantiate keepsScripts_nestedScripts h.ready
    fun text _ hr => keeps_lookupType scope text search hr).post hok ty rfl

theorem knows_of_resolve (h : Steady tame p m)
    (hok : resolve scope search name m = .ok (some ty) m₁) : m₁.Knows ty.base := by
  obtain ⟨h₁, he⟩ := h.after_resolve hok
  cases hplain : m.findPlain scope name search true with
  | some found =>
    rw [resolve_of_found hplain] at hok
    cases hok
    exact h.knows_of_findPlain hplain
  | none =>
    cases hform : Template.split? name with
    | some cut =>
      obtain ⟨template, types, between, id, rfl, -, -, -, hlisted⟩ :=
        h.instance_of_resolve hplain hform hok
      exact knows_of_owner (h₁.sound.isTree.listed hlisted).2
    | none =>
      cases hcut : Path.splitAfterTemplate? name with
      | some parts =>
        obtain ⟨outer, -, hfound⟩ := resolve_head hplain hform hcut hok
        exact h₁.knows_of_findPlain hfound
      | none =>
        rw [resolve_of_neither hplain hform hcut] at hok
        cases hok

/-- A lookup that succeeded without the hook resolved the name of its query. -/
theorem resolve_of_lookup {markers : List Char} (h : Steady tame p m)
    (hok : lookupType scope query search m = .ok ty m₁) (hquiet : m₁.journal = m.journal)
    (hsplit : TypeQuery.split (Name.normalizeQuery query) = .ok (name, markers)) :
    ∃ found, resolve scope search name m = .ok (some found) m₁ ∧
      ty = TypeQuery.applyMarkers found markers ∧
      (found.isRaw && (m₁.node found.base).isTemplate) = false := by
  obtain ⟨hne, -⟩ := parts_of_lookupType hok
  rw [lookupType_eq hne hsplit, ModelM.bind_apply] at hok
  split at hok
  · next resolved between hresolve =>
    obtain ⟨hs, he⟩ := h.after_resolve hresolve
    have hconclude := does_concludeLookup runs_nestedScripts hs.sound scope
      (Name.normalizeQuery query) name markers resolved
    have hr := hconclude.run_of_ok hok
    obtain ⟨found, rfl, -, rfl⟩ | hasked := hconclude.post hok
    · exact ⟨found, hresolve, concludeLookup_some hok⟩
    · have hback : m₁.journal <+: between.journal := hquiet ▸ he.journal_prefix
      exact absurd (hback.eq_of_length_le hr.journal_prefix.length_le) hasked
  · cases hok

theorem parts_of_lookup (h : Steady tame p m) (hok : lookupType scope query search m = .ok ty m₁)
    (hquiet : m₁.journal = m.journal) : Name.normalizeQuery query ≠ "" ∧
      ∃ name markers found, TypeQuery.split (Name.normalizeQuery query) = .ok (name, markers) ∧
        resolve scope search name m = .ok (some found) m₁ ∧
        ty = TypeQuery.applyMarkers found markers ∧
        (found.isRaw && (m₁.node found.base).isTemplate) = false := by
  obtain ⟨hne, name, markers, hsplit⟩ := parts_of_lookupType hok
  obtain ⟨found, hparts⟩ := h.resolve_of_lookup hok hquiet hsplit
  exact ⟨hne, name, markers, found, hsplit, hparts⟩

end Steady

namespace Grows

theorem specializationScope_eq (he : Grows tame m.size m later) (hk : m.Knows template) :
    later.specializationScope template = m.specializationScope template := by
  have howner : later.owner? template = m.owner? template := (he.identity template hk).owner
  rw [specializationScope, specializationScope, howner]

theorem specializationName_eq (he : Grows tame m.size m later) (hk : m.Knows template)
    (htypes : ∀ ty ∈ types, m.Knows ty.base) :
    later.specializationName template types = m.specializationName template types := by
  have hwritten : types.map later.signature = types.map m.signature :=
    List.map_congr_left fun ty hty =>
      TypeRef.render_congr (he.identity ty.base (htypes ty hty)).fullName
  rw [specializationName, specializationName, hwritten, (he.identity template hk).name]

theorem quiet_of_quiet {n' : Nat} (he : Grows tame n m m₁) (he' : Grows tame n' m₁ m')
    (hquiet : m'.journal = m.journal) : m₁.journal = m.journal := by
  have hback : m₁.journal <+: m.journal := hquiet ▸ he'.journal_prefix
  exact hback.eq_of_length_le he.journal_prefix.length_le

end Grows

namespace Steady

/-- Each argument of a template was looked up in a model that the lookups of those in front of it
led to, and what came afterwards kept the model that its own lookup led to. -/
theorem entry_of_lookups (h : Steady tame p m)
    (hok : arguments.mapM (lookupType scope · search) m = .ok types m₁)
    (hquiet : m₁.journal = m.journal) {entry : String × TypeRef}
    (hentry : entry ∈ arguments.zip types) : ∃ front back before m₂ m₃,
      arguments = front ++ entry.1 :: back ∧
      front.mapM (lookupType scope · search) m = .ok before m₂ ∧ Steady tame p m₂ ∧
      lookupType scope entry.1 search m₂ = .ok entry.2 m₃ ∧ m₃.journal = m₂.journal ∧
      Grows tame m₃.size m₃ m₁ := by
  obtain ⟨front, back, before, behind, m₂, m₃, harguments, hbefore, hlookup, hbehind⟩ :=
    (mapM_eq_ok_split hok).2 entry hentry
  obtain ⟨h₂, he₂⟩ := h.after_lookups hbefore
  obtain ⟨h₃, he₃⟩ := h₂.after_lookup hlookup
  obtain ⟨-, he₁⟩ := h₃.after_lookups hbehind
  have hquiet₃ := (he₂.trans (he₃.mono he₂.size_le)).quiet_of_quiet he₁ hquiet
  have hquiet₂ := he₂.quiet_of_quiet he₃ hquiet₃
  exact ⟨front, back, before, m₂, m₃, harguments, hbefore, h₂, hlookup,
    hquiet₃.trans hquiet₂.symm, he₁⟩

theorem knows_of_lookups (h : Steady tame p m)
    (hok : arguments.mapM (lookupType scope · search) m = .ok types m₁)
    (hquiet : m₁.journal = m.journal) : ∀ ty ∈ types, m₁.Knows ty.base := by
  have hzip : ∀ entry ∈ arguments.zip types, m₁.Knows entry.2.base := by
    intro entry hentry
    obtain ⟨_, _, _, m₂, m₃, -, -, h₂, hlookup, hquiet', he⟩ :=
      h.entry_of_lookups hok hquiet hentry
    obtain ⟨-, name, markers, found, -, hresolve, hty, -⟩ := h₂.parts_of_lookup hlookup hquiet'
    rw [hty, base_applyMarkers]
    exact he.knows (h₂.knows_of_resolve hresolve)
  intro ty hty
  rw [← List.map_snd_zip (mapM_eq_ok_split hok).1.ge] at hty
  obtain ⟨entry, he, rfl⟩ := List.mem_map.mp hty
  exact hzip entry he

end Steady

end Model

end ApiModel
