import ApiModel.Proofs.Ancestry
import ApiModel.Proofs.ExportNames

/-!
Export names of inherited operations. A class has them under its own path, with the alias that the
user gave or one that is made up anew, and numbers where names clash. An export name of its own goes
along with an operation as it is, so the copies share it.
-/

namespace ApiModel

open Relation

namespace ExportName

variable {front front' stem digits digits' : List Char} {mark : Char}

theorem Digits.nil : Digits [] := nofun

theorem Digits.append (h : Digits digits) (h' : Digits digits') : Digits (digits ++ digits') :=
  List.forall_mem_append.mpr ⟨h, h'⟩

def Ends (mark : Char) (front : List Char) : Prop := ∀ c ∈ front.getLast?, c = mark

theorem count_digits (h : Digits digits) (hmark : mark.isDigit = false) : digits.count mark = 0 :=
  List.count_eq_zero.mpr fun hmem => by simp [h mark hmem] at hmark

theorem front_eq_of_append_digits (hmark : mark.isDigit = false) (hf : Ends mark front')
    (hd : Digits digits) (h : front' ++ stem = front ++ stem ++ digits) : front = front' := by
  have hcount : front'.count mark = front.count mark := by
    have hc := congrArg (List.count mark) h
    simp only [List.count_append, count_digits hd hmark] at hc
    omega
  rw [List.append_assoc] at h
  obtain ⟨more, rfl, hstem⟩ | ⟨more, rfl, -⟩ := List.append_eq_append_iff.mp h
  · have hlength := congrArg List.length hstem
    simp only [List.length_append] at hlength
    obtain rfl : more = [] := List.length_eq_zero_iff.mp (by omega)
    exact List.append_nil _
  · -- what the other front has more has no mark, but it would end with one
    rw [List.count_append] at hcount
    obtain rfl | ⟨before, c, rfl⟩ := more.eq_nil_or_concat
    · exact (List.append_nil _).symm
    · obtain rfl : c = mark := hf c (by simp)
      simp at hcount

/-- The number of marks in front of a stem tells where it begins, whatever digits follow. -/
theorem front_inj (hmark : mark.isDigit = false) (hf : Ends mark front) (hf' : Ends mark front')
    (hd : Digits digits) (hd' : Digits digits')
    (h : front ++ stem ++ digits = front' ++ stem ++ digits') : front = front' := by
  obtain ⟨more, hfront, rfl⟩ | ⟨more, hfront, rfl⟩ := List.append_eq_append_iff.mp h
  · exact front_eq_of_append_digits hmark hf' (List.forall_mem_append.mp hd).1 hfront
  · exact (front_eq_of_append_digits hmark hf (List.forall_mem_append.mp hd').1 hfront).symm

end ExportName

namespace Path

def front (path : String) : List Char := if path = "" then [] else path.toList ++ [':', ':']

theorem toList_qualify (path name : String) :
    (qualify path name).toList = front path ++ name.toList := by
  unfold qualify front
  split <;> simp

theorem front_injective : Function.Injective front := by
  intro path path' h
  unfold front at h
  split at h
  · next he =>
    split at h
    · next he' => rw [he, he']
    · simp at h
  · split at h
    · simp at h
    · exact String.toList_inj.mp (List.append_cancel_right h)

theorem ends_front (path : String) : ExportName.Ends ':' (front path) := by
  unfold front
  split <;> simp [ExportName.Ends]

theorem qualify_ne_of_ne {path path' name name' : String} {stem digits digits' : List Char}
    (hne : path ≠ path') (hname : name.toList = stem ++ digits)
    (hname' : name'.toList = stem ++ digits') (hd : ExportName.Digits digits)
    (hd' : ExportName.Digits digits') : qualify path name ≠ qualify path' name' := by
  intro h
  have hlist := congrArg String.toList h
  rw [toList_qualify, toList_qualify, hname, hname', ← List.append_assoc, ← List.append_assoc]
    at hlist
  exact hne (front_injective
    (ExportName.front_inj (by decide) (ends_front path) (ends_front path') hd hd' hlist))

end Path

namespace ExportName

theorem ends_nil : Ends mark [] := by simp [Ends]

theorem ends_cons {c : Char} {cs : List Char} :
    Ends mark (c :: cs) ↔ (cs = [] → c = mark) ∧ Ends mark cs := by
  cases cs <;> simp [Ends]

theorem mangleFront_eq_nil {cs : List Char} (h : mangleFront cs = []) : cs = [] := by
  fun_cases mangleFront cs <;> simp_all [mangleFront]

theorem ends_mangleFront {cs : List Char} (h : Ends ':' cs) : Ends '_' (mangleFront cs) := by
  fun_induction mangleFront cs with
  | case1 => exact ends_nil
  | case2 cs ih => exact ends_cons.mpr ⟨fun _ => rfl, ih (ends_cons.mp (ends_cons.mp h).2).2⟩
  | case3 cs ih => exact ends_cons.mpr ⟨fun _ => rfl, ih (ends_cons.mp h).2⟩
  | case4 cs ih =>
    obtain ⟨hcs, hrest⟩ := ends_cons.mp h
    simp only [ends_cons, List.cons_ne_nil, false_imp_iff, true_and]
    exact ⟨fun hnil => absurd (hcs (mangleFront_eq_nil hnil)) (by decide), ih hrest⟩
  | case5 cs ih =>
    obtain ⟨hcs, hrest⟩ := ends_cons.mp h
    simp only [ends_cons, List.cons_ne_nil, false_imp_iff, true_and]
    exact ⟨fun hnil => absurd (hcs (mangleFront_eq_nil hnil)) (by decide), ih hrest⟩
  | case6 c cs _ _ _ _ ih =>
    obtain ⟨hcs, hrest⟩ := ends_cons.mp h
    refine ends_cons.mpr ⟨fun hnil => ?_, ih hrest⟩
    rw [hcs (mangleFront_eq_nil hnil)]
    decide

theorem ends_scopeFront (path : String) : Ends '_' (scopeFront path) := by
  unfold scopeFront
  split
  · exact ends_nil
  · exact ends_mangleFront (by simp [Ends, pathFront])

/-- The name does not run into the path in front of it, and has no bracket at its end that would be
dropped. -/
structure PlainStem (name : String) : Prop where
  head : (Text.dropBlanks name.toList).head? ≠ some ':'
  last : (Text.dropBlanks name.toList).getLast? ≠ some '>'

/-- A stem with a number has different export names in scopes whose paths are mangled apart. -/
theorem scopeFront_eq_of_mangle_eq {libraryPrefix path path' name name' : String}
    {stem digits digits' : List Char} (hp : PlainPath path) (hp' : PlainPath path')
    (hn : PlainStem name) (hn' : PlainStem name') (hname : name.toList = stem ++ digits)
    (hname' : name'.toList = stem ++ digits') (hd : Digits digits) (hd' : Digits digits')
    (h : mangle libraryPrefix (Path.qualify path name) =
      mangle libraryPrefix (Path.qualify path' name')) : scopeFront path = scopeFront path' := by
  rw [mangle_qualify hp hn.head, mangle_qualify hp' hn'.head, String.append_right_inj,
    String.ofList_inj] at h
  obtain ⟨mangled, hmangled⟩ := exists_mangleChars_append_digits (Text.dropBlanks stem)
  have hlast := hn.last
  have hlast' := hn'.last
  rw [hname, Text.dropBlanks_append, hd.dropBlanks_eq] at h hlast
  rw [hname', Text.dropBlanks_append, hd'.dropBlanks_eq] at h hlast'
  rw [hmangled _ hd hlast, hmangled _ hd' hlast', ← List.append_assoc, ← List.append_assoc] at h
  exact front_inj (by decide) (ends_scopeFront path) (ends_scopeFront path') hd hd' h

end ExportName

namespace Operation

variable {op op' : Operation} {stem : String}

/-- The export name is made from the stem, with digits behind it or without. -/
def IsNumbered (stem : String) (op : Operation) : Prop :=
  ∃ digits, ExportName.Digits digits ∧ op.exportStem.toList = stem.toList ++ digits

theorem IsNumbered.refl (op : Operation) : op.IsNumbered op.exportStem :=
  ⟨[], .nil, (List.append_nil _).symm⟩

theorem IsNumbered.trans (h : op.IsNumbered stem) (h' : op'.IsNumbered op.exportStem) :
    op'.IsNumbered stem := by
  obtain ⟨digits, hd, hs⟩ := h
  obtain ⟨digits', hd', hs'⟩ := h'
  exact ⟨digits ++ digits', hd.append hd', by rw [hs', hs, List.append_assoc]⟩

theorem isNumbered_of_alias {n : Nat} (h : op.entity.aliasName = some (stem ++ toString n)) :
    op.IsNumbered stem :=
  ⟨(toString n).toList, (ExportName.digits_toString n).1,
    by rw [exportStem, h, Option.getD_some, String.toList_append]⟩

def withoutMadeUp (op : Operation) : Operation := op.mapEntity Entity.clearAutoAlias

theorem withoutMadeUp_eq_self (h : op.entity.autoAlias = false) : op.withoutMadeUp = op := by
  have he : op.entity.clearAutoAlias = op.entity := by simp [Entity.clearAutoAlias, h]
  rw [withoutMadeUp, mapEntity, he]

/-- The export name has the stem now and when a new alias will be made up. -/
structure Follows (stem : String) (op : Operation) : Prop where
  numbered : op.IsNumbered stem
  withoutMadeUp : op.withoutMadeUp.IsNumbered stem

theorem Follows.trans (h : op.IsNumbered stem) (h' : op'.Follows op.exportStem) :
    op'.Follows stem :=
  ⟨h.trans h'.numbered, h.trans h'.withoutMadeUp⟩

/-- An alias that was made up is the name with a number, as tables make it. -/
def HasUsualAlias (op : Operation) : Prop :=
  op.entity.autoAlias = true → ∃ n : Nat, op.entity.aliasName = some (op.name ++ toString n)

/-- What numbers are put behind where the operation is inherited: the name, unless a user gave an
alias. -/
def inheritedStem (op : Operation) : String := op.withoutMadeUp.exportStem

theorem inheritedStem_of_autoAlias (h : op.entity.autoAlias = true) :
    op.inheritedStem = op.name := by
  simp [inheritedStem, withoutMadeUp, exportStem, mapEntity, Entity.clearAutoAlias, h,
    Entity.touch, name]

theorem follows_of_autoAlias {n : Nat} (hauto : op.entity.autoAlias = true)
    (h : op.entity.aliasName = some (op.name ++ toString n)) : op.Follows op.name := by
  refine ⟨isNumbered_of_alias h, ?_⟩
  rw [← inheritedStem_of_autoAlias hauto]
  exact .refl _

theorem follows_of_not_autoAlias (hauto : op.entity.autoAlias = false)
    (h : op.IsNumbered stem) : op.Follows stem := by
  refine ⟨h, ?_⟩
  rwa [withoutMadeUp_eq_self hauto]

theorem HasUsualAlias.follows (h : op.HasUsualAlias) : op.Follows op.inheritedStem := by
  cases hauto : op.entity.autoAlias with
  | false =>
    rw [inheritedStem, withoutMadeUp_eq_self hauto]
    exact follows_of_not_autoAlias hauto (.refl op)
  | true =>
    obtain ⟨n, hn⟩ := h hauto
    rw [inheritedStem_of_autoAlias hauto]
    exact follows_of_autoAlias hauto hn

end Operation

namespace OperationTable

variable {t : OperationTable} {op : Operation}

/-- The alias that is tried last is a stem with a number. -/
theorem exists_entity_aliasUntilFree (t : OperationTable) (libraryPrefix stem : String)
    (setAlias : Entity → String → Entity) (trials n : Nat) (op : Operation) :
    ∃ (before : Entity) (k : Nat),
      (t.aliasUntilFree libraryPrefix stem setAlias (trials + 1) n op).entity =
        setAlias before (stem ++ toString k) := by
  induction trials generalizing n op with
  | zero =>
    unfold aliasUntilFree
    dsimp only
    split <;> exact ⟨op.entity, n, rfl⟩
  | succ trials ih =>
    unfold aliasUntilFree
    dsimp only
    split
    · exact ih _ _
    · exact ⟨op.entity, n, rfl⟩

/-- A table gives no alias, puts a number behind the one that a user gave, or makes up one that is
the name with a number. -/
theorem withFreeExportName_cases (t : OperationTable) (libraryPrefix : String) (op : Operation) :
    t.withFreeExportName libraryPrefix op = op ∨
    ∃ k : Nat,
      (∃ stem, op.entity.aliasName = some stem ∧ op.entity.autoAlias = false ∧
        (t.withFreeExportName libraryPrefix op).entity.autoAlias = false ∧
        (t.withFreeExportName libraryPrefix op).entity.aliasName = some (stem ++ toString k)) ∨
      (op.entity.autoAlias = false → op.entity.aliasName = none) ∧
        (t.withFreeExportName libraryPrefix op).entity.autoAlias = true ∧
        (t.withFreeExportName libraryPrefix op).entity.aliasName =
          some (op.name ++ toString k) := by
  unfold withFreeExportName
  dsimp only
  split
  · refine .inr ?_
    split
    · next stem halias hauto =>
      obtain ⟨before, k, he⟩ := t.exists_entity_aliasUntilFree libraryPrefix stem Entity.setAlias
        t.size ((t.overloads op.name).length + 1) op
      rw [Entity.setAlias, if_neg (append_toString_ne_empty stem k)] at he
      exact ⟨k, .inl ⟨stem, halias, hauto, by rw [he]; rfl, by rw [he]; rfl⟩⟩
    · next hnone =>
      obtain ⟨before, k, he⟩ := t.exists_entity_aliasUntilFree libraryPrefix op.name
        Entity.setAutoAlias t.size ((t.overloads op.name).length + 1) op
      refine ⟨k, .inr ⟨fun hauto => ?_, by rw [he]; rfl, by rw [he]; rfl⟩⟩
      exact Option.eq_none_iff_forall_ne_some.mpr fun text h => hnone text h hauto
  · exact .inl rfl

theorem follows_withFreeExportName (t : OperationTable) (libraryPrefix : String)
    (op : Operation) (hauto : op.entity.autoAlias = false) :
    (t.withFreeExportName libraryPrefix op).Follows op.exportStem := by
  obtain he | ⟨k, ⟨stem, halias, -, hauto', halias'⟩ | ⟨hnone, hauto', halias'⟩⟩ :=
    t.withFreeExportName_cases libraryPrefix op
  · rw [he]
    exact Operation.follows_of_not_autoAlias hauto (.refl op)
  · rw [Operation.exportStem, halias, Option.getD_some]
    exact Operation.follows_of_not_autoAlias hauto' (Operation.isNumbered_of_alias halias')
  · have hname := (t.sameDeclaration_withFreeExportName libraryPrefix op).name
    rw [Operation.exportStem, hnone hauto, Option.getD_none, ← hname]
    exact Operation.follows_of_autoAlias hauto' (by rw [halias', hname])

theorem follows_stored (t : OperationTable) (libraryPrefix : String)
    (hauto : op.entity.autoAlias = false) :
    (t.stored libraryPrefix op).Follows op.exportStem :=
  t.follows_withFreeExportName libraryPrefix { op with index := (t.overloads op.name).length } hauto

theorem hasUsualAlias_stored (t : OperationTable) (libraryPrefix : String)
    (h : op.HasUsualAlias) : (t.stored libraryPrefix op).HasUsualAlias := by
  intro hauto
  have hname := (t.sameDeclaration_stored libraryPrefix op).name
  rw [stored] at hauto hname ⊢
  obtain he | ⟨k, ⟨stem, -, -, hauto', -⟩ | ⟨-, -, halias⟩⟩ := t.withFreeExportName_cases
    libraryPrefix { op with index := (t.overloads op.name).length }
  · rw [he] at hauto ⊢
    exact h hauto
  · exact absurd (hauto.symm.trans hauto') nofun
  · exact ⟨k, by rw [halias, hname]; rfl⟩

theorem forall_mem_markSame {Q : Operation → Prop} {c : Operation}
    (marked : ∀ op, Q op → Q { op with ambiguous := true }) (h : ∀ op ∈ t.toList, Q op) :
    ∀ op ∈ (t.markSame c).toList, Q op := by
  unfold markSame
  split
  · next group hgroup =>
    intro op hop
    obtain ⟨group', hgroup', hop⟩ := List.mem_flatten.mp hop
    obtain rfl | hgroup' := OrderedMap.mem_values_insert hgroup'
    · obtain ⟨op', hop', he⟩ := mem_markFirst hop
      have hop' := h op' (List.mem_flatten.mpr ⟨group, OrderedMap.mem_values_of_get? hgroup, hop'⟩)
      obtain rfl | rfl := he
      · exact hop'
      · exact marked op' hop'
    · exact h op (List.mem_flatten.mpr ⟨group', hgroup', hop⟩)
  · exact h

end OperationTable

namespace Model

variable {p : Policy} {m : Model} {id parent base : TypeId} {e o c : Operation}

theorem forall_mem_inherit {Q : Operation → Prop} {t : OperationTable}
    (marked : ∀ op, Q op → Q { op with ambiguous := true })
    (new : ∀ ambiguous, ∀ t : OperationTable,
      Q (t.stored m.libraryPrefix (m.inheritedForm id { c with ambiguous })))
    (h : ∀ op ∈ t.toList, Q op) : ∀ op ∈ (m.inherit id t c).toList, Q op := by
  have hinsert : ∀ (t : OperationTable) (ambiguous : Bool), (∀ op ∈ t.toList, Q op) →
      ∀ op ∈ (t.insert m.libraryPrefix (m.inheritedForm id { c with ambiguous })).toList, Q op := by
    intro t ambiguous ht op hop
    obtain rfl | hop := OperationTable.mem_toList_insert hop
    · exact new ambiguous t
    · exact ht op hop
  unfold inherit
  split
  · exact hinsert t c.ambiguous h
  · split
    · exact h
    · exact hinsert _ true (OperationTable.forall_mem_markSame marked h)

theorem forall_mem_foldl_inherit {Q : Operation → Prop} {ops : List Operation} {t : OperationTable}
    (marked : ∀ op, Q op → Q { op with ambiguous := true })
    (new : ∀ c ∈ ops, ∀ ambiguous, ∀ t : OperationTable,
      Q (t.stored m.libraryPrefix (m.inheritedForm id { c with ambiguous })))
    (h : ∀ op ∈ t.toList, Q op) : ∀ op ∈ (ops.foldl (m.inherit id) t).toList, Q op := by
  induction ops generalizing t with
  | nil => exact h
  | cons c ops ih =>
    obtain ⟨hc, hrest⟩ := List.forall_mem_cons.mp new
    exact ih hrest (forall_mem_inherit marked hc h)

/-- What the operations of scopes have, and what marks and inheritance keep, all operations have
that classes have. -/
theorem Lineage.forall_operations (h : Lineage p m) {Q : TypeId → Operation → Prop}
    (own : ∀ id a, m.scope? id = some a → ∀ op ∈ a.operations.toList, Q id op)
    (marked : ∀ id op ambiguous, Q id op → Q id { op with ambiguous })
    (inherited : ∀ id parent op, ∀ t : OperationTable, m.Derives id parent → Q parent op →
      Q id (t.stored m.libraryPrefix (m.inheritedForm id op)))
    (id : TypeId) : ∀ op ∈ (m.operationTable id).toList, Q id op := by
  induction id using h.wellFounded.induction with
  | _ id ih =>
    cases hs : m.scope? id with
    | none =>
      have hempty : m.operationTable id = .empty := by rw [operationTable, operationTableTo, hs]
      rw [hempty]
      exact fun op hop => absurd hop List.not_mem_nil
    | some a =>
      by_cases hc : (m.node id).isClass = true
      · rw [operationTable_class h hc hs]
        refine forall_mem_foldl_inherit (fun op => marked id op true) ?_ (own id a hs)
        intro c hmem ambiguous t
        obtain ⟨parent, hp, hmem⟩ := mem_inheritedOperations.mp hmem
        exact inherited id parent _ t hp (marked parent c ambiguous (ih parent hp c hmem))
      · rw [operationTable_eq h hs, if_neg hc]
        exact own id a hs

/-- What the name of an inherited operation is made from, before a table stores it. -/
structure InheritedNaming (c op : Operation) : Prop where
  exportStem : op.exportStem = c.withoutMadeUp.exportStem
  autoAlias : op.entity.autoAlias = false
  exportOverride : op.entity.exportOverride = c.entity.exportOverride
  exportCache : op.entity.exportCache = none

theorem naming_inheritedForm (m : Model) (id : TypeId) (c : Operation) :
    InheritedNaming c (m.inheritedForm id c) := by
  refine ⟨rfl, ?_, ?_, rfl⟩
  · show c.entity.clearAutoAlias.autoAlias = false
    unfold Entity.clearAutoAlias
    split
    · rfl
    · next h => simpa using h
  · show c.entity.clearAutoAlias.exportOverride = c.entity.exportOverride
    unfold Entity.clearAutoAlias
    split <;> rfl

/-- The class `id` has the operation as its copy of the one that the struct or class `base` stores:
over any number of levels, with marks and with the names that some table leaves to it. -/
inductive CopiedFrom (m : Model) (base : TypeId) (o : Operation) : TypeId → Operation → Prop
  | stored {a : Scope} (scope : m.scope? base = some a) (mem : o ∈ a.operations.toList) :
      CopiedFrom m base o base o
  | marked {id : TypeId} {e : Operation} (ambiguous : Bool) (copy : CopiedFrom m base o id e) :
      CopiedFrom m base o id { e with ambiguous }
  | inherited {id parent : TypeId} {c : Operation} (derives : m.Derives id parent)
      (copy : CopiedFrom m base o parent c) (t : OperationTable) :
      CopiedFrom m base o id (t.stored m.libraryPrefix (m.inheritedForm id c))

/-- Whatever a class has is a copy. -/
theorem Lineage.exists_copiedFrom (h : Lineage p m) (id : TypeId) :
    ∀ e ∈ (m.operationTable id).toList, ∃ base o, m.CopiedFrom base o id e := by
  refine h.forall_operations (Q := fun id e => ∃ base o, m.CopiedFrom base o id e) ?_ ?_ ?_ id
  · exact fun id a hs op hop => ⟨id, op, .stored hs hop⟩
  · exact fun id op ambiguous ⟨base, o, hcopy⟩ => ⟨base, o, hcopy.marked ambiguous⟩
  · exact fun id parent op t hd ⟨base, o, hcopy⟩ => ⟨base, o, hcopy.inherited hd t⟩

namespace CopiedFrom

theorem name_eq (h : m.CopiedFrom base o id e) : e.name = o.name := by
  induction h with
  | stored => rfl
  | marked _ _ ih => exact ih
  | @inherited id parent c _ _ t ih => exact (m.inherits_stored id t c).name.trans ih

theorem baseClass_eq (h : m.CopiedFrom base o id e) : e.baseClass = o.baseClass := by
  induction h with
  | stored => rfl
  | marked _ _ ih => exact ih
  | @inherited id parent c _ _ t ih => exact (m.inherits_stored id t c).baseClass.trans ih

theorem exists_scope (h : m.CopiedFrom base o id e) :
    ∃ a, m.scope? base = some a ∧ o ∈ a.operations.toList := by
  induction h with
  | stored scope mem => exact ⟨_, scope, mem⟩
  | marked _ _ ih => exact ih
  | inherited _ _ _ ih => exact ih

theorem exportOverride_eq (h : m.CopiedFrom base o id e) :
    e.entity.exportOverride = o.entity.exportOverride := by
  induction h with
  | stored => rfl
  | marked _ _ ih => exact ih
  | @inherited id parent c _ _ t ih =>
    rw [(OperationTable.naming_stored (m.naming_inheritedForm id c).exportCache).2,
      (m.naming_inheritedForm id c).exportOverride, ih]

theorem settled (h : m.CopiedFrom base o id e) (hne : base ≠ id) :
    e.entity.scopePath = m.scopePath id ∧ e.entity.exportCache = none := by
  induction h with
  | stored => exact absurd rfl hne
  | marked _ _ ih => exact ih hne
  | @inherited id parent c _ _ t ih =>
    have hcache := (m.naming_inheritedForm id c).exportCache
    have hdeclared := t.sameDeclaration_stored m.libraryPrefix (m.inheritedForm id c)
    exact ⟨hdeclared.scopePath, (OperationTable.naming_stored hcache).1⟩

/-- Whatever aliases are made up on the way, the stem stays. -/
theorem follows (h : m.CopiedFrom base o id e) (ho : o.HasUsualAlias) :
    e.Follows o.inheritedStem := by
  induction h with
  | stored => exact ho.follows
  | marked _ _ ih => exact ⟨ih.numbered, ih.withoutMadeUp⟩
  | @inherited id parent c _ _ t ih =>
    have hform := m.naming_inheritedForm id c
    have hstored := t.follows_stored m.libraryPrefix hform.autoAlias
    rw [hform.exportStem] at hstored
    exact .trans ih.withoutMadeUp hstored

end CopiedFrom

end Model

namespace Operation

variable {e o : Operation} {stem : String}

def exportText (op : Operation) : String := Path.qualify op.entity.scopePath op.exportStem

/-- What the export name is mangled from is put together of parts that are mangled apart. -/
structure ExportsPlainly (op : Operation) : Prop where
  path : ExportName.PlainPath op.entity.scopePath
  stem : ExportName.PlainStem op.exportStem

/-- How the export names of an operation and of its copy in a class relate. -/
structure CopyNaming (libraryPrefix : String) (o e : Operation) : Prop where
  /-- An export name of its own is shared. -/
  shared : ∀ text, o.entity.exportOverride = some text →
    o.exportName libraryPrefix = text ∧ e.exportName libraryPrefix = text
  mangled : o.entity.exportOverride = none →
    o.exportName libraryPrefix = ExportName.mangle libraryPrefix o.exportText ∧
    e.exportName libraryPrefix = ExportName.mangle libraryPrefix e.exportText
  /-- Under different full names different texts are mangled. -/
  texts : e.entity.fullName ≠ o.entity.fullName → e.exportText ≠ o.exportText
  /-- Under paths that are mangled apart the results differ too. -/
  apart : o.entity.exportOverride = none → e.ExportsPlainly → o.ExportsPlainly →
    ExportName.scopeFront e.entity.scopePath ≠ ExportName.scopeFront o.entity.scopePath →
      e.exportName libraryPrefix ≠ o.exportName libraryPrefix

theorem CopyNaming.of_numbered (hname : e.name = o.name)
    (hoverride : e.entity.exportOverride = o.entity.exportOverride)
    (hcache : e.entity.exportCache = none) (hcache' : o.entity.exportCache = none)
    (he : e.IsNumbered stem) (ho : o.IsNumbered stem) (libraryPrefix : String) :
    CopyNaming libraryPrefix o e := by
  obtain ⟨digits, hd, hstem⟩ := he
  obtain ⟨digits', hd', hstem'⟩ := ho
  have hmangled : o.entity.exportOverride = none →
      o.exportName libraryPrefix = ExportName.mangle libraryPrefix o.exportText ∧
      e.exportName libraryPrefix = ExportName.mangle libraryPrefix e.exportText := by
    intro hnone
    rw [exportName_eq hcache, exportName_eq hcache', hoverride, hnone]
    exact ⟨rfl, rfl⟩
  refine ⟨fun text htext => ?_, hmangled, fun hne => ?_, fun hnone hplain hplain' hne heq => ?_⟩
  · rw [exportName_eq hcache, exportName_eq hcache', hoverride, htext]
    exact ⟨rfl, rfl⟩
  · have hpath : e.entity.scopePath ≠ o.entity.scopePath := fun hpath => hne (by
      rw [Entity.fullName, Entity.fullName, hpath]
      exact congrArg _ hname)
    exact Path.qualify_ne_of_ne hpath hstem hstem' hd hd'
  · rw [(hmangled hnone).1, (hmangled hnone).2] at heq
    exact hne (ExportName.scopeFront_eq_of_mangle_eq hplain.path hplain'.path hplain.stem
      hplain'.stem hstem hstem' hd hd' heq)

end Operation

namespace Model

variable {p : Policy} {m : Model}

/-- All operations of a class are its own or copies, and scopes make up aliases only that are the
name with a number. An export name of its own an operation shares with its copies. Otherwise,
whatever alias a user gave to it and whatever aliases are made up on the way, an operation and its
copy are exported under names that are mangled from different texts. -/
theorem Reachable.copies_exported (h : Reachable p m) :
    (∀ id, ∀ e ∈ (m.operationTable id).toList, ∃ base o, m.CopiedFrom base o id e) ∧
    (∀ scope op (t : OperationTable), op.HasUsualAlias →
      (t.stored m.libraryPrefix (m.ownedOperation scope op)).HasUsualAlias) ∧
    ∀ base o id e, m.CopiedFrom base o id e → base ≠ id → o.HasUsualAlias →
      (p.freshOperations → e.baseClass = some base) ∧ Operation.CopyNaming m.libraryPrefix o e := by
  have hbegun : Begun p m := h.exists_run
  refine ⟨fun id => h.lineage.exists_copiedFrom id, fun scope op t hop =>
    t.hasUsualAlias_stored _ hop, fun base o id e hcopy hne ho => ?_⟩
  obtain ⟨a, hs, hmem⟩ := hcopy.exists_scope
  refine ⟨fun hp => ?_, ?_⟩
  · rw [hcopy.baseClass_eq]
    exact congrArg Origin.base (h.lineage.own hp base a hs o hmem)
  · exact .of_numbered hcopy.name_eq hcopy.exportOverride_eq (hcopy.settled hne).2
      (hbegun.invariants.2.2 base a hs o hmem) (hcopy.follows ho).numbered ho.follows.numbered _

def derivedWith (op : Operation) : List Action :=
  [.addType .root (declaration .classType "" "A") true,
   .addType .root (declaration .classType "" "D") true, .addOperation ⟨1⟩ op, .addParent ⟨2⟩ ⟨1⟩]

theorem reachable_derivedWith {op : Operation} (h : op.IsFresh) :
    Reachable .operationsFresh (bare.afterAll (derivedWith op)) := by
  refine reachable_bare.afterAll ?_
  simp only [derivedWith, List.forall_mem_cons, List.not_mem_nil, false_imp_iff, implies_true,
    and_true]
  exact ⟨fun _ => isFresh_declaration nofun nofun, fun _ => isFresh_declaration nofun nofun,
    fun _ _ => h, fun _ => trivial⟩

theorem copiedFrom_derivedWith (op o : Operation)
    (ho : (bare.afterAll (derivedWith op)).operation? ⟨1⟩ (op.name, 0) = some o)
    (hd : (bare.afterAll (derivedWith op)).parents ⟨2⟩ = [⟨1⟩]) :
    (bare.afterAll (derivedWith op)).CopiedFrom ⟨1⟩ o ⟨2⟩
      (OperationTable.empty.stored (bare.afterAll (derivedWith op)).libraryPrefix
        ((bare.afterAll (derivedWith op)).inheritedForm ⟨2⟩ o)) := by
  obtain ⟨a, hs, hplace⟩ := operation?_eq_some_iff.mp ho
  refine .inherited ?_ (.stored hs (OperationTable.mem_toList_of_place hplace)) _
  rw [Derives, hd]
  exact List.mem_singleton_self _

/-- The operation `foo` of `A` with the alias `bar` is exported as `rbind_A_bar`, and its copy in
`D` under another name. -/
theorem copies_exported_with_alias : ∃ m o e, Reachable .operationsFresh m ∧
    m.CopiedFrom ⟨1⟩ o ⟨2⟩ e ∧ e ∈ (m.operationTable ⟨2⟩).toList ∧ o.HasUsualAlias ∧
    o.exportName m.libraryPrefix = "rbind_A_bar" ∧
    e.exportName m.libraryPrefix ≠ o.exportName m.libraryPrefix := by
  let op : Operation := { entity := { name := "foo", aliasName := some "bar" } }
  let m := bare.afterAll (derivedWith op)
  have h : Reachable .operationsFresh m := reachable_derivedWith ⟨rfl, rfl⟩
  let o : Operation := {
    entity :=
      { name := "foo", scopePath := "A", owner := some ⟨1⟩, aliasName := some "bar", version := 2 }
    baseClass := some ⟨1⟩ }
  have hcopy := copiedFrom_derivedWith op o (by decide +kernel) (by decide +kernel)
  have hnaming := (h.copies_exported.2.2 _ _ _ _ hcopy (by decide) nofun).2
  refine ⟨m, o, _, h, hcopy, by decide +kernel, nofun, by decide +kernel, ?_⟩
  refine hnaming.apart rfl ⟨?_, ?_, ?_⟩ ⟨?_, ?_, ?_⟩ ?_ <;> decide +kernel

/-- The copy of an operation that has the export name `my_foo` has it too. -/
theorem copies_share_own_name : ∃ m o e, Reachable .operationsFresh m ∧
    m.CopiedFrom ⟨1⟩ o ⟨2⟩ e ∧ e ∈ (m.operationTable ⟨2⟩).toList ∧
    (m.node ⟨2⟩).isClass = true ∧ e.baseClass = some ⟨1⟩ ∧
    e.exportName m.libraryPrefix = o.exportName m.libraryPrefix := by
  let op : Operation := { entity := { name := "foo", exportOverride := some "my_foo" } }
  let o : Operation := {
    entity := { name := "foo", scopePath := "A", owner := some ⟨1⟩,
                exportOverride := some "my_foo", version := 2 }
    baseClass := some ⟨1⟩ }
  let m := bare.afterAll (derivedWith op)
  have h : Reachable .operationsFresh m := reachable_derivedWith ⟨rfl, rfl⟩
  have hcopy := copiedFrom_derivedWith op o (by decide +kernel) (by decide +kernel)
  refine ⟨m, o, _, h, hcopy, ?_, ?_, ?_, ?_⟩ <;> decide +kernel

end Model

end ApiModel
