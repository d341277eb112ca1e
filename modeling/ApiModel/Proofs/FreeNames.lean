import ApiModel.Proofs.ExportNames
import Mathlib.Order.Bounds.Basic
import Mathlib.Order.Nat

/-!
What the insertion of an operation into a table does. Only the operation that comes in is changed:
it is numbered, and if its export name is taken, it gets the first numbered alias under which it is
free. The index of aliases keeps in step with the operations.
-/

namespace ApiModel

def Entity.aliased (e : Entity) (auto : Bool) (text : String) (changes : Nat) : Entity :=
  { e with
    aliasName := some text, autoAlias := auto, exportCache := none,
    version := e.version + changes }

theorem Entity.aliased_aliased (e : Entity) (auto : Bool) (text text' : String)
    (changes changes' : Nat) : (e.aliased auto text changes).aliased auto text' changes' =
      e.aliased auto text' (changes + changes') := by
  rw [aliased, aliased, aliased, Nat.add_assoc]

def Operation.userAlias? (op : Operation) : Option String :=
  if op.entity.autoAlias then none else op.entity.aliasName

namespace OrderedMap

variable {κ ν : Type} [DecidableEq κ]

theorem flatten_put (key : κ) (value : ν) (entries : List (κ × List ν)) :
    ((put key ((lookup key entries).getD [] ++ [value]) entries).map Prod.snd).flatten.Perm
      (value :: (entries.map Prod.snd).flatten) := by
  induction entries with
  | nil => exact .refl _
  | cons entry entries ih =>
    obtain ⟨k, group⟩ := entry
    rw [lookup]
    split
    · next hk =>
      rw [put, if_pos hk, Option.getD_some, List.map_cons, List.flatten_cons, List.append_assoc]
      exact List.perm_middle
    · next hk =>
      rw [put, if_neg hk, List.map_cons, List.flatten_cons]
      exact (ih.append_left group).trans List.perm_middle

end OrderedMap

namespace OperationTable

variable {t : OperationTable} {libraryPrefix stem : String} {op : Operation}
  {setAlias : Entity → String → Entity} {auto : Bool} {n start trials : Nat}

/-- The numbers from `start` on that make, behind the stem, an alias under which the export name of
the operation is free. -/
def freeNumbers (t : OperationTable) (libraryPrefix stem : String) (op : Operation) (start : Nat) :
    Set Nat :=
  {k | start ≤ k ∧ t.exportTaken libraryPrefix (ExportName.mangle libraryPrefix
    (Path.qualify op.entity.scopePath (stem ++ toString k))) = false}

theorem exists_isLeast_freeNumbers (t : OperationTable) (libraryPrefix stem : String)
    (op : Operation) (start : Nat) :
    ∃ n, IsLeast (t.freeNumbers libraryPrefix stem op start) n ∧ n ≤ start + t.size := by
  obtain ⟨i, hi, hfree⟩ := t.exists_free_number libraryPrefix op.entity.scopePath stem start
  have hmem : start + i ∈ t.freeNumbers libraryPrefix stem op start :=
    ⟨Nat.le_add_right start i, hfree⟩
  classical
  have hleast := Nat.isLeast_find (p := (· ∈ t.freeNumbers libraryPrefix stem op start)) ⟨_, hmem⟩
  exact ⟨_, hleast, (hleast.2 hmem).trans (by omega)⟩

/-- The trials come to the first free number. -/
theorem aliasUntilFree_eq
    (hset : ∀ e text, text ≠ "" → setAlias e text = Entity.aliased e auto text 1)
    (ho : op.entity.exportOverride = none)
    (hn : IsLeast (t.freeNumbers libraryPrefix stem op start) n) (hlt : n < start + trials) :
    t.aliasUntilFree libraryPrefix stem setAlias trials start op =
      op.mapEntity (·.aliased auto (stem ++ toString n) (n + 1 - start)) := by
  induction trials generalizing start op with
  | zero => exact absurd hn.1.1 (Nat.not_le.mpr hlt)
  | succ trials ih =>
    have hstep : op.mapEntity (setAlias · (stem ++ toString start)) =
        op.mapEntity (·.aliased auto (stem ++ toString start) 1) := by
      rw [Operation.mapEntity, hset _ _ (append_toString_ne_empty stem start), Operation.mapEntity]
    have hname : (op.mapEntity (·.aliased auto (stem ++ toString start) 1)).exportName
        libraryPrefix = ExportName.mangle libraryPrefix
          (Path.qualify op.entity.scopePath (stem ++ toString start)) := by
      simp [Operation.exportName, Operation.mapEntity, Entity.exportName, Entity.freshExportName,
        Entity.aliased, ho]
    rw [aliasUntilFree, hstep, hname]
    split
    · next htaken =>
      have hne : n ≠ start := fun he => by
        have hfree := hn.1.2
        rw [he, htaken] at hfree
        cases hfree
      have hlater : IsLeast (t.freeNumbers libraryPrefix stem
          (op.mapEntity (·.aliased auto (stem ++ toString start) 1)) (start + 1)) n :=
        ⟨⟨Nat.lt_of_le_of_ne hn.1.1 hne.symm, hn.1.2⟩,
          fun k hk => hn.2 ⟨(Nat.le_succ start).trans hk.1, hk.2⟩⟩
      have ho' : (op.mapEntity (·.aliased auto (stem ++ toString start) 1)).entity.exportOverride =
          none := ho
      rw [ih ho' hlater (by omega)]
      have hchanges : 1 + (n + 1 - (start + 1)) = n + 1 - start := by
        have hle : start + 1 ≤ n := hlater.1.1
        omega
      rw [Operation.mapEntity, Operation.mapEntity, Entity.aliased_aliased, hchanges,
        Operation.mapEntity]
    · next hfree =>
      have hle : n ≤ start := hn.2 ⟨le_rfl, by simpa using hfree⟩
      obtain rfl : n = start := Nat.le_antisymm hle hn.1.1
      rw [Nat.add_sub_cancel_left]

theorem withFreeExportName_of_kept
    (h : t.exportTaken libraryPrefix (op.exportName libraryPrefix) = false ∨
      op.entity.exportOverride ≠ none) : t.withFreeExportName libraryPrefix op = op := by
  unfold withFreeExportName
  refine if_neg fun htaken => ?_
  rw [Bool.and_eq_true, Option.isNone_iff_eq_none] at htaken
  obtain hfree | ho := h
  · rw [hfree] at htaken
    exact absurd htaken.1 nofun
  · exact ho htaken.2

theorem withFreeExportName_of_taken
    (htaken : t.exportTaken libraryPrefix (op.exportName libraryPrefix) = true)
    (ho : op.entity.exportOverride = none)
    (hn : IsLeast (t.freeNumbers libraryPrefix (op.userAlias?.getD op.name) op
      ((t.overloads op.name).length + 1)) n) :
    t.withFreeExportName libraryPrefix op =
      op.mapEntity (·.aliased op.userAlias?.isNone (op.userAlias?.getD op.name ++ toString n)
        (n - (t.overloads op.name).length)) := by
  obtain ⟨n', hn', hle⟩ := t.exists_isLeast_freeNumbers libraryPrefix
    (op.userAlias?.getD op.name) op ((t.overloads op.name).length + 1)
  obtain rfl := hn.unique hn'
  have hlt : n < (t.overloads op.name).length + 1 + (t.size + 1) := by omega
  have hset : ∀ (e : Entity) text, text ≠ "" → e.setAlias text = e.aliased false text 1 :=
    fun e text htext => by rw [Entity.setAlias, if_neg htext]; rfl
  have hsetAuto : ∀ (e : Entity) text, text ≠ "" →
      e.setAutoAlias text = e.aliased true text 1 := fun _ _ _ => rfl
  have hchanges : n + 1 - ((t.overloads op.name).length + 1) =
      n - (t.overloads op.name).length := by omega
  rw [withFreeExportName, htaken, ho, ← hchanges]
  simp only [Option.isNone_none, Bool.and_self, if_true]
  cases hauto : op.entity.autoAlias with
  | true =>
    have huser : op.userAlias? = none := by rw [Operation.userAlias?, hauto, if_pos rfl]
    rw [huser] at hn ⊢
    cases op.entity.aliasName <;> exact aliasUntilFree_eq hsetAuto ho hn hlt
  | false =>
    have huser : op.userAlias? = op.entity.aliasName := by
      rw [Operation.userAlias?, hauto]
      rfl
    rw [huser] at hn ⊢
    cases halias : op.entity.aliasName with
    | none =>
      rw [halias] at hn
      exact aliasUntilFree_eq hsetAuto ho hn hlt
    | some text =>
      rw [halias] at hn
      exact aliasUntilFree_eq hset ho hn hlt

theorem stored_of_kept (h : t.exportTaken libraryPrefix (op.exportName libraryPrefix) = false ∨
    op.entity.exportOverride ≠ none) :
    t.stored libraryPrefix op = { op with index := (t.overloads op.name).length } :=
  withFreeExportName_of_kept h

theorem stored_of_taken
    (htaken : t.exportTaken libraryPrefix (op.exportName libraryPrefix) = true)
    (ho : op.entity.exportOverride = none)
    (hn : IsLeast (t.freeNumbers libraryPrefix (op.userAlias?.getD op.name) op
      ((t.overloads op.name).length + 1)) n) :
    t.stored libraryPrefix op = { op with
      index := (t.overloads op.name).length
      entity := op.entity.aliased op.userAlias?.isNone (op.userAlias?.getD op.name ++ toString n)
        (n - (t.overloads op.name).length) } := by
  have hnumbered : { op with index := (t.overloads op.name).length }.entity.exportOverride = none :=
    ho
  exact withFreeExportName_of_taken htaken hnumbered hn

/-- The operations that the index leads to from an alias. -/
def underAlias (t : OperationTable) (text : String) : List Operation :=
  ((t.aliases.get? text).getD []).filterMap t.entry?

theorem find_eq_underAlias {text : String} (h : t.overloads text = []) :
    t.find text = t.underAlias text := by
  rw [find, h, underAlias]

theorem toList_push_perm (t : OperationTable) (op : Operation) :
    (t.push op).toList.Perm (op :: t.toList) := by
  rw [toList, groups_push]
  exact OrderedMap.flatten_put op.name op t.groups.entries

theorem entry?_push_of_isSome {place : String × Nat} (h : ( entry? t place).isSome) :
    entry? (t.push op) place = entry? t place := by
  obtain ⟨found, hfound⟩ := Option.isSome_iff_exists.mp h
  rw [hfound]
  exact (entry?_push ..).mpr (.inl hfound)

theorem places_push (t : OperationTable) (op : Operation) (text : String) :
    ((t.push op).aliases.get? text).getD [] =
      (t.aliases.get? text).getD [] ++
        if op.entity.aliasName = some text then [(op.name, (t.overloads op.name).length)]
        else [] := by
  unfold push
  cases halias : op.entity.aliasName with
  | none => simp
  | some stem =>
    by_cases hs : stem = text
    · subst hs
      simp
    · simp [hs]

structure Indexed (t : OperationTable) : Prop where
  grouped : t.Grouped
  places : ∀ text, ∀ place ∈ (t.aliases.get? text).getD [], ( entry? t place).isSome
  found : ∀ text, (t.underAlias text).Perm (t.toList.filter (·.entity.aliasName = some text))

theorem indexed_empty : Indexed empty where
  grouped := grouped_empty
  places _ _ h := by cases h
  found _ := .refl _

theorem Indexed.push (h : t.Indexed) (op : Operation) : (t.push op).Indexed where
  grouped := h.grouped.push op
  places text place hplace := by
    rw [places_push, List.mem_append] at hplace
    obtain hold | hnew := hplace
    · have hsome := h.places text place hold
      rwa [entry?_push_of_isSome hsome]
    · split at hnew
      · obtain rfl := List.mem_singleton.mp hnew
        exact Option.isSome_iff_exists.mpr ⟨op, (entry?_push ..).mpr (.inr ⟨rfl, rfl⟩)⟩
      · cases hnew
  found text := by
    have hold : ((t.aliases.get? text).getD []).filterMap (OperationTable.entry? (t.push op)) =
        t.underAlias text :=
      List.filterMap_congr fun place hplace => entry?_push_of_isSome (h.places text place hplace)
    have hnew : OperationTable.entry? (t.push op) (op.name, (t.overloads op.name).length) =
        some op :=
      (entry?_push ..).mpr (.inr ⟨rfl, rfl⟩)
    have hlist := (t.toList_push_perm op).filter (·.entity.aliasName = some text)
    rw [underAlias, places_push, List.filterMap_append, hold]
    refine .trans ?_ hlist.symm
    by_cases ha : op.entity.aliasName = some text
    · rw [if_pos ha, List.filterMap_cons_some hnew, List.filterMap_nil, List.filter_cons_of_pos
        (by simpa using ha)]
      exact (List.perm_append_singleton op _).trans ((h.found text).cons op)
    · rw [if_neg ha, List.filterMap_nil, List.append_nil, List.filter_cons_of_neg
        (by simpa using ha)]
      exact h.found text

def ofList (libraryPrefix : String) (ops : List Operation) : OperationTable :=
  ops.foldl (·.insert libraryPrefix ·) .empty

theorem ofList_append (libraryPrefix : String) (ops : List Operation) (op : Operation) :
    ofList libraryPrefix (ops ++ [op]) = (ofList libraryPrefix ops).insert libraryPrefix op := by
  rw [ofList, List.foldl_append]
  rfl

theorem indexed_ofList (libraryPrefix : String) (ops : List Operation) :
    (ofList libraryPrefix ops).Indexed := by
  induction ops using List.reverseRecOn with
  | nil => exact indexed_empty
  | append_singleton ops op ih =>
    rw [ofList_append]
    exact ih.push _

theorem length_overloads_ofList (libraryPrefix : String) (ops : List Operation) (name : String) :
    ((ofList libraryPrefix ops).overloads name).length = ops.countP (·.name = name) := by
  induction ops using List.reverseRecOn with
  | nil => rfl
  | append_singleton ops op ih =>
    rw [ofList_append, insert, overloads_push, List.countP_append, ← ih,
      (sameDeclaration_stored ..).name]
    split
    · next hname => simp [hname]
    · next hname => simp [hname]

theorem Indexed.find_perm (h : t.Indexed) {text : String}
    (hother : ∀ other ∈ t.toList, other.name ≠ text) :
    (t.find text).Perm (t.toList.filter (·.entity.aliasName = some text)) := by
  have hnone : t.overloads text = [] := List.eq_nil_iff_forall_not_mem.mpr fun op hop =>
    hother op (mem_toList_of_mem_overloads hop) (h.grouped text op hop)
  rw [find_eq_underAlias hnone]
  exact h.found text

/-- Inserting an operation into a table that was filled by insertions appends one operation to those
of its name and changes no other. It is numbered with its position, the number of operations of that
name before it. Unless it has an export name of its own, no earlier operation has its export name.
If its export name was free, or its own, nothing else becomes of it. Otherwise it gets an alias: the
one that the user gave, or else the name, with the first number behind the position that makes the
export name free; a number is found in no more trials than there are operations, and one. Afterwards
the table finds exactly the operations with an alias under it, unless it is the name of some. -/
theorem insert_under_free_name (libraryPrefix : String) (ops : List Operation) (op : Operation) :
    let t := ofList libraryPrefix ops
    let t' := t.insert libraryPrefix op
    let stored := t.stored libraryPrefix op
    let index := ops.countP (·.name = op.name)
    let stem := op.userAlias?.getD op.name
    let taken := t.exportTaken libraryPrefix (op.exportName libraryPrefix)
    (∀ name, t'.overloads name =
      if op.name = name then t.overloads name ++ [stored] else t.overloads name) ∧
    stored.index = index ∧ (t.overloads op.name).length = index ∧
    OperationTable.entry? t' (op.name, index) = some stored ∧
    (op.entity.exportOverride = none →
      ∀ other ∈ t.toList, other.exportName libraryPrefix ≠ stored.exportName libraryPrefix) ∧
    (taken = false ∨ op.entity.exportOverride ≠ none → stored = { op with index }) ∧
    (taken = true → op.entity.exportOverride = none → ∃ n ≤ index + 1 + t.size,
      IsLeast (t.freeNumbers libraryPrefix stem op (index + 1)) n ∧
      stored = { op with
        index
        entity := op.entity.aliased op.userAlias?.isNone (stem ++ toString n) (n - index) }) ∧
    ∀ text, (∀ other ∈ t'.toList, other.name ≠ text) →
      (t'.find text).Perm (t'.toList.filter (·.entity.aliasName = some text)) := by
  intro t t' stored index stem taken
  have hindex : (t.overloads op.name).length = index := length_overloads_ofList ..
  have hname : stored.name = op.name := (t.sameDeclaration_stored libraryPrefix op).name
  have hkept : taken = false ∨ op.entity.exportOverride ≠ none → stored = { op with index } := by
    intro h
    have hstored := stored_of_kept h
    rwa [hindex] at hstored
  have haliased : taken = true → op.entity.exportOverride = none → ∃ n ≤ index + 1 + t.size,
      IsLeast (t.freeNumbers libraryPrefix stem op (index + 1)) n ∧
      stored = { op with
        index
        entity := op.entity.aliased op.userAlias?.isNone (stem ++ toString n) (n - index) } := by
    intro htaken ho
    obtain ⟨n, hn, hle⟩ := t.exists_isLeast_freeNumbers libraryPrefix stem op (index + 1)
    have hstored := stored_of_taken htaken ho (hindex.symm ▸ hn)
    rw [hindex] at hstored
    exact ⟨n, hle, hn, hstored⟩
  refine ⟨fun name => ?_, ?_, hindex, ?_, fun ho other hother he => ?_, hkept, haliased,
    fun text hother => ?_⟩
  · rw [← hname]
    exact overloads_push t stored name
  · cases htaken : taken with
    | false => rw [hkept (.inl htaken)]
    | true =>
      by_cases ho : op.entity.exportOverride = none
      · obtain ⟨n, -, -, he⟩ := haliased htaken ho
        rw [he]
      · rw [hkept (.inr ho)]
  · rw [← hname, ← hindex, ← hname]
    exact (entry?_push ..).mpr (.inr ⟨rfl, rfl⟩)
  · have hfree : t.exportTaken libraryPrefix (stored.exportName libraryPrefix) = false :=
      exportTaken_stored ho
    have htaken : t.exportTaken libraryPrefix (stored.exportName libraryPrefix) = true :=
      List.any_eq_true.mpr ⟨other, hother, decide_eq_true he⟩
    exact absurd (hfree.symm.trans htaken) nofun
  · exact ((indexed_ofList libraryPrefix ops).push stored).find_perm hother

/-- Three operations `foo` take the names `foo`, `foo2` and `foo3`. So an operation `foo3` gets the
alias `foo31`, under which it is found. -/
theorem insert_under_free_name_of_made_up_alias :
    let foo : Operation := { entity := { name := "foo" } }
    let op : Operation := { entity := { name := "foo3" } }
    let t := ofList "rbind_" [foo, foo, foo]
    IsLeast (t.freeNumbers "rbind_" "foo3" op 1) 1 ∧
      (t.stored "rbind_" op).entity.aliasName = some "foo31" ∧
      ((t.insert "rbind_" op).find "foo31").Perm [t.stored "rbind_" op] := by
  intro foo op t
  have htaken : t.exportTaken "rbind_" (op.exportName "rbind_") = true := by decide +kernel
  have hfirst : 1 ∈ t.freeNumbers "rbind_" "foo3" op 1 := ⟨le_rfl, by decide +kernel⟩
  have hother : ∀ other ∈ (t.insert "rbind_" op).toList, other.name ≠ "foo31" := by decide +kernel
  have hlist : (t.insert "rbind_" op).toList.filter (·.entity.aliasName = some "foo31") =
      [t.stored "rbind_" op] := by decide +kernel
  obtain ⟨-, -, -, -, -, -, haliased, hfound⟩ :=
    insert_under_free_name "rbind_" [foo, foo, foo] op
  obtain ⟨n, -, hn, hstored⟩ := haliased htaken rfl
  obtain rfl : n = 1 := Nat.le_antisymm (hn.2 hfirst) hn.1.1
  refine ⟨hn, ?_, ?_⟩
  · rw [hstored]
    decide +kernel
  · rw [← hlist]
    exact hfound "foo31" hother

end OperationTable

end ApiModel
