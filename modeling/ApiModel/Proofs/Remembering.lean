import ApiModel.Entity

/-!
Remembered export names. An entity remembers its export name when it is asked for it, and forgets it
with each change. So what it answers is what its fields say at that time, in whatever order it is
asked and changed, as long as it is asked with one prefix. The version counts all changes, but not
the calls that are refused or have nothing to do; these leave the entity as it is.
-/

namespace ApiModel

namespace Entity

/-- A call that changes an entity, unless it is refused or there is nothing to do. -/
inductive Edit where
  | setIgnored (ignored : Bool)
  | setExportName (text : String)
  | setAlias (text : String)
  | setAutoAlias (text : String)
  | clearAutoAlias
  | setOwner (owner : Option TypeId) (scopePath : String)
  | setScopePath (scopePath : String)
  | setName (name : String)
  | setFlags (kind : EntityKind) (flags : List Flag)
  | addFlag (kind : EntityKind) (flag : Flag)

namespace Edit

variable {e : Entity} {edit : Edit}

def run (e : Entity) : Edit → Except ModelError Entity
  | setIgnored ignored => .ok (e.setIgnored ignored)
  | setExportName text => .ok (e.setExportName text)
  | setAlias text => .ok (e.setAlias text)
  | setAutoAlias text => .ok (e.setAutoAlias text)
  | clearAutoAlias => .ok e.clearAutoAlias
  | setOwner owner scopePath => .ok (e.setOwner owner scopePath)
  | setScopePath scopePath => .ok (e.setScopePath scopePath)
  | setName name => .ok (e.setName name)
  | setFlags kind flags => e.setFlags kind flags
  | addFlag kind flag => e.addFlag kind flag

def after (e : Entity) (edit : Edit) : Entity :=
  match edit.run e with
  | .ok changed => changed
  | .error _ => e

def IsAllowed : Edit → Prop
  | setFlags kind flags => ∀ flag ∈ flags, flag ∈ kind.validFlags
  | addFlag kind flag => flag ∈ kind.validFlags
  | _ => True

/-- An alias without text, a flag that is present, or no made up alias to take away. -/
def HasNothingToDo (e : Entity) : Edit → Prop
  | setAlias text => text = ""
  | clearAutoAlias => e.autoAlias = false
  | addFlag _ flag => flag ∈ e.flags
  | _ => False

def Counts (e : Entity) (edit : Edit) : Prop := edit.IsAllowed ∧ ¬ edit.HasNothingToDo e

theorem validate_eq_ok_iff_of_single {kind : EntityKind} {flag : Flag} :
    kind.validate [flag] = .ok () ↔ flag ∈ kind.validFlags := by
  rw [EntityKind.validate_eq_ok_iff, List.forall_mem_singleton]

theorem run_eq_ok_of_isAllowed (h : edit.IsAllowed) : ∃ changed, edit.run e = .ok changed := by
  cases edit with
  | setFlags kind flags =>
    rw [run, Entity.setFlags, EntityKind.validate_eq_ok_iff.mpr h]
    exact ⟨_, rfl⟩
  | addFlag kind flag =>
    rw [run, Entity.addFlag, validate_eq_ok_iff_of_single.mpr h]
    exact ⟨_, rfl⟩
  | _ => exact ⟨_, rfl⟩

theorem run_eq_error_iff : (∃ failure, edit.run e = .error failure) ↔ ¬ edit.IsAllowed := by
  constructor
  · rintro ⟨failure, hrun⟩ hallowed
    obtain ⟨changed, hok⟩ := run_eq_ok_of_isAllowed (e := e) hallowed
    rw [hrun] at hok
    cases hok
  · intro h
    cases edit with
    | setFlags kind flags =>
      cases hv : kind.validate flags with
      | ok u => exact absurd (EntityKind.validate_eq_ok_iff.mp hv) h
      | error failure => exact ⟨failure, by rw [run, Entity.setFlags, hv]; rfl⟩
    | addFlag kind flag =>
      cases hv : kind.validate [flag] with
      | ok u => exact absurd (validate_eq_ok_iff_of_single.mp hv) h
      | error failure => exact ⟨failure, by rw [run, Entity.addFlag, hv]; rfl⟩
    | _ => exact absurd trivial h

/-- The fields as the call gives them. -/
def written (e : Entity) : Edit → Entity
  | setIgnored ignored => { e with ignored }
  | setExportName text => { e with exportOverride := some text }
  | setAlias text => { e with aliasName := some text, autoAlias := false }
  | setAutoAlias text => { e with aliasName := some text, autoAlias := true }
  | clearAutoAlias => { e with aliasName := none, autoAlias := false }
  | setOwner owner scopePath => { e with owner, scopePath }
  | setScopePath scopePath => { e with scopePath }
  | setName name => { e with name }
  | setFlags _ flags => { e with flags }
  | addFlag _ flag => { e with flags := e.flags ++ [flag] }

theorem version_written (e : Entity) (edit : Edit) : (edit.written e).version = e.version := by
  cases edit <;> rfl

/-- A change writes its fields and ends with a touch. -/
theorem after_of_counts (h : edit.Counts e) : edit.after e = (edit.written e).touch := by
  obtain ⟨hallowed, hdo⟩ := h
  cases edit with
  | setAlias text =>
    have htext : text ≠ "" := hdo
    simp only [after, run, Entity.setAlias, if_neg htext, written]
  | clearAutoAlias =>
    have hauto : e.autoAlias = true := by simpa [HasNothingToDo] using hdo
    simp only [after, run, Entity.clearAutoAlias, if_pos hauto, written]
  | setFlags kind flags =>
    rw [after, run, Entity.setFlags, EntityKind.validate_eq_ok_iff.mpr hallowed]
    rfl
  | addFlag kind flag =>
    have hnew : e.hasFlag flag = false := by simpa [hasFlag, HasNothingToDo] using hdo
    rw [after, run, Entity.addFlag, validate_eq_ok_iff_of_single.mpr hallowed]
    simp [hnew, bind, Except.bind, pure, Except.pure, written]
  | _ => rfl

/-- A call that is refused or has nothing to do leaves all as it was. -/
theorem after_of_not_counts (h : ¬ edit.Counts e) : edit.after e = e := by
  by_cases hallowed : edit.IsAllowed
  · have hnothing : edit.HasNothingToDo e := Classical.byContradiction fun hdo => h ⟨hallowed, hdo⟩
    cases edit with
    | setAlias text =>
      have htext : text = "" := hnothing
      simp only [after, run, Entity.setAlias, if_pos htext]
    | clearAutoAlias =>
      have hauto : e.autoAlias = false := hnothing
      simp [after, run, Entity.clearAutoAlias, hauto]
    | addFlag kind flag =>
      have hpresent : e.hasFlag flag = true := by simpa [hasFlag, HasNothingToDo] using hnothing
      rw [after, run, Entity.addFlag, validate_eq_ok_iff_of_single.mpr hallowed]
      simp [hpresent, bind, Except.bind, pure, Except.pure]
    | _ => exact hnothing.elim
  · obtain ⟨failure, hrun⟩ := run_eq_error_iff (e := e) |>.mpr hallowed
    rw [after, hrun]

end Edit

variable {e : Entity} {libraryPrefix : String}

/-- What the entity remembers, if anything, is what its fields say. -/
def RemembersFresh (libraryPrefix : String) (e : Entity) : Prop :=
  ∀ text, e.exportCache = some text → text = e.freshExportName libraryPrefix

theorem remembersFresh_of_cache_eq_none (h : e.exportCache = none) :
    e.RemembersFresh libraryPrefix := by
  intro text htext
  rw [h] at htext
  cases htext

theorem remembersFresh_touch (e : Entity) : e.touch.RemembersFresh libraryPrefix :=
  remembersFresh_of_cache_eq_none rfl

namespace RemembersFresh

theorem exportName_eq (h : e.RemembersFresh libraryPrefix) :
    e.exportName libraryPrefix = e.freshExportName libraryPrefix := by
  cases hover : e.exportOverride with
  | some text => simp [exportName, freshExportName, hover]
  | none =>
    cases hcache : e.exportCache with
    | some text => simpa [exportName, hover, hcache] using h text hcache
    | none => simp [exportName, hover, hcache]

theorem edit (h : e.RemembersFresh libraryPrefix) (edit : Edit) :
    (edit.after e).RemembersFresh libraryPrefix := by
  by_cases hc : edit.Counts e
  · rw [Edit.after_of_counts hc]
    exact remembersFresh_touch _
  · rwa [Edit.after_of_not_counts hc]

theorem ask (h : e.RemembersFresh libraryPrefix) :
    (e.askExportName libraryPrefix).2.RemembersFresh libraryPrefix := by
  unfold askExportName
  dsimp only
  split
  · exact h
  · rintro text ⟨⟩
    exact h.exportName_eq

end RemembersFresh

theorem askExportName_snd (e : Entity) (libraryPrefix : String) :
    { (e.askExportName libraryPrefix).2 with exportCache := e.exportCache } = e := by
  unfold askExportName
  dsimp only
  split <;> rfl

inductive Call where
  | edit (edit : Edit)
  | ask

def afterCall (libraryPrefix : String) (e : Entity) : Call → Entity
  | .edit edit => edit.after e
  | .ask => (e.askExportName libraryPrefix).2

def afterCalls (libraryPrefix : String) (e : Entity) (calls : List Call) : Entity :=
  calls.foldl (afterCall libraryPrefix) e

theorem RemembersFresh.afterCalls (h : e.RemembersFresh libraryPrefix) (calls : List Call) :
    (e.afterCalls libraryPrefix calls).RemembersFresh libraryPrefix := by
  induction calls generalizing e with
  | nil => exact h
  | cons call calls ih =>
    cases call with
    | edit edit => exact ih (h.edit edit)
    | ask => exact ih h.ask

def Call.override? : Call → Option String
  | edit (.setExportName text) => some text
  | _ => none

theorem exportOverride_afterCall (e : Entity) (call : Call) :
    (e.afterCall libraryPrefix call).exportOverride = call.override?.or e.exportOverride := by
  cases call with
  | ask =>
    rw [afterCall, askExportName]
    dsimp only
    split <;> rfl
  | edit edit =>
    by_cases hc : edit.Counts e
    · rw [afterCall, Edit.after_of_counts hc]
      cases edit <;> rfl
    · rw [afterCall, Edit.after_of_not_counts hc]
      cases edit with
      | setExportName => exact absurd ⟨trivial, id⟩ hc
      | _ => rfl

/-- The last export name that was fixed stays, whatever calls come behind it. -/
theorem exportOverride_afterCalls (e : Entity) (calls : List Call) :
    (e.afterCalls libraryPrefix calls).exportOverride =
      (calls.reverse.findSome? Call.override?).or e.exportOverride := by
  induction calls generalizing e with
  | nil => rfl
  | cons call calls ih =>
    have hrest := ih (e.afterCall libraryPrefix call)
    rw [exportOverride_afterCall] at hrest
    rw [afterCalls, List.foldl_cons, ← afterCalls, hrest, List.reverse_cons, List.findSome?_append,
      List.findSome?_singleton, Option.or_assoc]

/-- The answer is what the fields say then, whatever calls came before it, and asking changes none
of the fields. A change counts one; all other calls leave the entity as it is, and the refused ones
among them are those with a flag that the kind does not take. -/
theorem exportName_never_stale (h : e.exportCache = none) (calls : List Call) {now : Entity}
    (hnow : e.afterCalls libraryPrefix calls = now) :
    (now.askExportName libraryPrefix).1 = now.freshExportName libraryPrefix ∧
    { (now.askExportName libraryPrefix).2 with exportCache := now.exportCache } = now ∧
    ∀ edit : Edit,
      (edit.Counts now → (edit.after now).version = now.version + 1) ∧
      (¬ edit.Counts now → edit.after now = now) ∧
      ((∃ failure, edit.run now = .error failure) ↔ ¬ edit.IsAllowed) := by
  have hfresh : now.RemembersFresh libraryPrefix :=
    hnow ▸ (remembersFresh_of_cache_eq_none h).afterCalls calls
  refine ⟨hfresh.exportName_eq, askExportName_snd now libraryPrefix, fun edit => ?_⟩
  refine ⟨fun hc => ?_, Edit.after_of_not_counts, Edit.run_eq_error_iff⟩
  rw [Edit.after_of_counts hc, touch, Edit.version_written]

/-- `cv::Mat` is asked, gets an alias and is asked again, before a flag of operations is refused. -/
theorem exportName_never_stale_of_aliased : ∃ e now : Entity, ofName "cv.Mat" = .ok e ∧
    e.afterCalls "rbind_" [.ask, .edit (.setAlias "Matrix"), .ask] = now ∧
    e.exportName "rbind_" = "rbind_cv_Mat" ∧
    now.exportCache = some "rbind_cv_Matrix" ∧ now.version = 2 ∧
    (now.askExportName "rbind_").1 = now.freshExportName "rbind_" ∧
    (Edit.setFlags .classType [.static]).after now = now := by
  have he : ofName "cv.Mat" = .ok { name := "Mat", scopePath := "cv" } := by rfl
  have hstale := @exportName_never_stale { name := "Mat", scopePath := "cv" } "rbind_" rfl
    [.ask, .edit (.setAlias "Matrix"), .ask] _ rfl
  have hrefused : ¬ (Edit.setFlags .classType [.static]).Counts
      (afterCalls "rbind_" { name := "Mat", scopePath := "cv" }
        [.ask, .edit (.setAlias "Matrix"), .ask]) := fun hc => by
    simpa [EntityKind.validFlags] using hc.1 .static List.mem_cons_self
  exact ⟨_, _, he, rfl, by decide +kernel, by decide +kernel, by decide +kernel, hstale.1,
    (hstale.2.2 _).2.1 hrefused⟩

end Entity

end ApiModel
