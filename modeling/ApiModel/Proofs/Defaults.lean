import ApiModel.Lookup.Default
import ApiModel.Proofs.Brackets
import ApiModel.Proofs.Flattening
import ApiModel.Proofs.Paths

/-!
Default values of inherited operations. They are read from the class that inherits, so they are what
the declaring class makes of them exactly if every name that they call is seen from both. Names of
operations are, as the class inherits them too; nested types of the base need not be.
-/

namespace ApiModel

section

variable {α β ε : Type} {f : α → Except ε β} {xs : List α} {ys : List β}

theorem mapM_cons_eq_ok {x : α} : (x :: xs).mapM f = .ok ys ↔
    ∃ y rest, f x = .ok y ∧ xs.mapM f = .ok rest ∧ ys = y :: rest := by
  rw [List.mapM_cons]
  cases f x with
  | error failure => exact ⟨nofun, fun ⟨_, _, hx, _⟩ => nomatch hx⟩
  | ok y =>
    cases xs.mapM f with
    | error failure => exact ⟨nofun, fun ⟨_, _, _, hxs, _⟩ => nomatch hxs⟩
    | ok rest =>
      show Except.ok (y :: rest) = .ok ys ↔ _
      simp [eq_comm]

theorem exists_mapM_eq_ok (h : ∀ x ∈ xs, ∃ y, f x = .ok y) : ∃ ys, xs.mapM f = .ok ys := by
  induction xs with
  | nil => exact ⟨[], rfl⟩
  | cons x xs ih =>
    obtain ⟨⟨y, hx⟩, hxs⟩ := List.forall_mem_cons.mp h
    obtain ⟨ys, hys⟩ := ih hxs
    exact ⟨y :: ys, mapM_cons_eq_ok.mpr ⟨y, ys, hx, hys, rfl⟩⟩

theorem getElem?_of_mapM_eq_ok (h : xs.mapM f = .ok ys) {i : Nat} {x : α} (hx : xs[i]? = some x) :
    ∃ y, ys[i]? = some y ∧ f x = .ok y := by
  induction xs generalizing ys i with
  | nil => simp at hx
  | cons first xs ih =>
    obtain ⟨y, rest, hfirst, hrest, rfl⟩ := mapM_cons_eq_ok.mp h
    cases i with
    | zero =>
      obtain rfl := Option.some.inj hx
      exact ⟨y, rfl, hfirst⟩
    | succ i => exact ih hrest hx

end

def Scope.lacksType (members : Scope) (name : String) : Bool :=
  (members.types.get? name).isNone && (members.typeAliases.get? name).isNone

theorem Scope.lacksType_iff {members : Scope} {name : String} : members.lacksType name = true ↔
    members.types.get? name = none ∧ members.typeAliases.get? name = none := by
  simp [lacksType]

namespace Model

variable {p : Policy} {m : Model} {id base scope : TypeId} {e : Operation} {parameter : Parameter}
  {callee arguments : String}

/-- The call in a default value and its arguments. Literals of basic types and of pointers are not
taken for calls. -/
def call? (m : Model) (parameter : Parameter) : Option (String × String) :=
  if (m.node parameter.type.base).isBasic || parameter.type.isPointer then none
  else parameter.defaultValue.bind DefaultValue.splitCall?

theorem normalizedDefault_of_call (h : m.call? parameter = some (callee, arguments))
    (scope : TypeId) (operation : String) :
    ∃ failure, m.normalizedDefault scope operation parameter =
      match m.calleeName? scope callee with
      | some name => .ok (some (name ++ "(" ++ arguments ++ ")"))
      | none => .error failure := by
  unfold call? at h
  split at h
  · cases h
  · next hkind =>
    obtain ⟨value, hvalue, hsplit⟩ := Option.bind_eq_some_iff.mp h
    refine ⟨.misparsedDefaultValue value operation, ?_⟩
    cases hname : m.calleeName? scope callee <;>
      simp [normalizedDefault, hvalue, hkind, hsplit, hname]

theorem normalizedDefault_of_no_call (h : m.call? parameter = none) :
    ∃ text, ∀ scope operation, m.normalizedDefault scope operation parameter = .ok text := by
  unfold call? at h
  cases hvalue : parameter.defaultValue with
  | none => exact ⟨none, fun _ _ => by rw [normalizedDefault, hvalue]⟩
  | some value =>
    rw [hvalue, Option.bind_some] at h
    split at h
    · next hkind =>
      refine ⟨some (DefaultValue.clean (m.node parameter.type.base).name value), fun _ _ => ?_⟩
      rw [normalizedDefault, hvalue]
      exact if_pos hkind
    · next hkind =>
      refine ⟨some value, fun _ _ => ?_⟩
      simp [normalizedDefault, hvalue, hkind, h]

theorem calleeName?_of_findType {ty : TypeRef} (h : m.findType scope callee .owners = some ty) :
    m.calleeName? scope callee = some (m.signature ty) := by
  rw [calleeName?, h]

theorem isSome_calleeName?_iff {scope : TypeId} (operation : String)
    (h : m.call? parameter = some (callee, arguments)) :
    (m.calleeName? scope callee).isSome = true ↔
      ∃ text, m.normalizedDefault scope operation parameter = .ok text := by
  obtain ⟨failure, he⟩ := normalizedDefault_of_call h scope operation
  rw [he]
  cases m.calleeName? scope callee <;> simp

/-- The class `base` stores the operation of which `e` is a copy. -/
structure StoredIn (m : Model) (base : TypeId) (e stored : Operation) : Prop where
  mem : ∃ a, m.scope? base = some a ∧ stored ∈ a.operations.toList
  name : stored.name = e.name
  parameters : stored.parameters = e.parameters
  returnType : stored.returnType = e.returnType

/-- A copy leads back to the class that declared it, and all classes on the way have operations of
all the names that this class has. -/
theorem Lineage.exists_stored (h : Lineage p m) (hp : p.freshOperations)
    (he : e ∈ (m.operationTable id).toList) (hbase : e.baseClass = some base) :
    (∃ stored, m.StoredIn base e stored) ∧
      ∀ name, (m.operationTable base).overloads name ≠ [] →
        (m.operationTable id).overloads name ≠ [] := by
  obtain ⟨rank, hr⟩ := h.exists_rank
  induction hn : rank id using Nat.strong_induction_on generalizing id e with
  | _ n ih =>
  rcases mem_operationTable_cases h he with ⟨a, hs, own, hown, hmark⟩ | ⟨hc, c, hin, hcopy⟩
  · have horigin := congrArg Origin.base (h.own hp id a hs own hown)
    have hsame : own.baseClass = e.baseClass := by rcases hmark with rfl | rfl <;> rfl
    obtain rfl : id = base := Option.some.inj (horigin.symm.trans (hsame.trans hbase))
    refine ⟨⟨own, ⟨a, hs, hown⟩, ?_, ?_, ?_⟩, fun _ hname => hname⟩ <;>
      rcases hmark with rfl | rfl <;> rfl
  · obtain ⟨parent, hparent, hmem⟩ := mem_inheritedOperations.mp hin
    have hlt : rank parent < n := hn ▸ hr.lt (show m.Derives id parent from hparent)
    obtain ⟨⟨stored, hst⟩, hnames⟩ :=
      ih (rank parent) hlt hmem (hcopy.baseClass ▸ hbase) rfl
    refine ⟨⟨stored, hst.mem, hst.name.trans hcopy.name.symm,
      hst.parameters.trans hcopy.parameters.symm, hst.returnType.trans hcopy.returnType.symm⟩,
      fun name hname => ?_⟩
    obtain ⟨op, hop⟩ := List.exists_mem_of_ne_nil _ (hnames name hname)
    have hopname := grouped_operationTable h parent name op hop
    obtain ⟨⟨name', i⟩, found, hfound, hsig, -⟩ := represents_operationTable h hc
      (mem_inheritedOperations.mpr
        ⟨parent, hparent, OperationTable.mem_toList_of_mem_overloads hop⟩)
    have hfmem : found ∈ (m.operationTable id).overloads name' := List.mem_of_getElem? hfound
    have hfname := grouped_operationTable h id name' found hfmem
    obtain rfl : name' = name := hfname.symm.trans (hsig.1.trans hopname)
    exact List.ne_nil_of_mem hfmem

theorem owner_of_mem_operationTable (h : Lineage p m) (hc : m.Coherent)
    (he : e ∈ (m.operationTable id).toList) : e.owner = some id := by
  rcases mem_operationTable_cases h he with ⟨a, hs, own, hown, hmark⟩ | ⟨-, c, -, hcopy⟩
  · have howner : own.owner = some id :=
      hc.owned id a hs own.entity (Scope.mem_entities.mpr (.inl ⟨own, hown, rfl⟩))
    rcases hmark with rfl | rfl <;> exact howner
  · exact hcopy.owner

theorem defaultValues_eq (ho : e.owner = some id) :
    m.defaultValues e = e.parameters.mapM (m.normalizedDefault id (e.signature m.fullName)) := by
  rw [defaultValues, ho]
  rfl

/-- The copy has default values too, and those that call a type of the declaring class are the
same. -/
def KeepsDefaults (m : Model) (base : TypeId) (e : Operation) (values : List (Option String)) :
    Prop :=
  ∃ values', m.defaultValues e = .ok values' ∧ ∀ (i : Nat) parameter callee arguments,
    e.parameters[i]? = some parameter → m.call? parameter = some (callee, arguments) →
      (m.findType base callee .owners).isSome = true → values'[i]? = values[i]?

/-- Every name that is called is seen from the class, and the types of the declaring class are seen
as the same. -/
def SeesCallees (m : Model) (id base : TypeId) (e : Operation) : Prop :=
  ∀ parameter ∈ e.parameters, ∀ callee arguments, m.call? parameter = some (callee, arguments) →
    (m.calleeName? id callee).isSome = true ∧
      ∀ ty, m.findType base callee .owners = some ty →
        m.calleeName? id callee = some (m.signature ty)

theorem exists_defaultValues_iff (ho : e.owner = some id) :
    (∃ values, m.defaultValues e = .ok values) ↔
      ∀ parameter ∈ e.parameters, ∀ callee arguments,
        m.call? parameter = some (callee, arguments) → (m.calleeName? id callee).isSome = true := by
  rw [defaultValues_eq ho]
  constructor
  · rintro ⟨values, hok⟩ parameter hp callee arguments hcall
    obtain ⟨i, hi⟩ := List.mem_iff_getElem?.mp hp
    obtain ⟨text, -, ht⟩ := getElem?_of_mapM_eq_ok hok hi
    exact (isSome_calleeName?_iff _ hcall).mpr ⟨text, ht⟩
  · intro hseen
    refine exists_mapM_eq_ok fun parameter hp => ?_
    cases hcall : m.call? parameter with
    | none =>
      obtain ⟨text, ht⟩ := normalizedDefault_of_no_call hcall
      exact ⟨text, ht _ _⟩
    | some call =>
      obtain ⟨callee, arguments⟩ := call
      exact (isSome_calleeName?_iff _ hcall).mp (hseen parameter hp callee arguments hcall)

theorem keepsDefaults_iff {stored : Operation} {values : List (Option String)}
    (ho : e.owner = some id) (hos : stored.owner = some base)
    (hp : stored.parameters = e.parameters) (hok : m.defaultValues stored = .ok values) :
    m.KeepsDefaults base e values ↔ m.SeesCallees id base e := by
  rw [defaultValues_eq hos, hp] at hok
  -- what the two make of one call
  have hpair : ∀ {values' : List (Option String)} {i : Nat} {parameter callee arguments ty},
      e.parameters.mapM (m.normalizedDefault id (e.signature m.fullName)) = .ok values' →
      e.parameters[i]? = some parameter → m.call? parameter = some (callee, arguments) →
      m.findType base callee .owners = some ty →
      (values'[i]? = values[i]? ↔ m.calleeName? id callee = some (m.signature ty)) := by
    intro values' i parameter callee arguments ty hok' hi hcall hty
    obtain ⟨text, hv, ht⟩ := getElem?_of_mapM_eq_ok hok hi
    obtain ⟨text', hv', ht'⟩ := getElem?_of_mapM_eq_ok hok' hi
    obtain ⟨failure, hn⟩ := normalizedDefault_of_call hcall base (stored.signature m.fullName)
    obtain ⟨failure', hn'⟩ := normalizedDefault_of_call hcall id (e.signature m.fullName)
    rw [ht, calleeName?_of_findType hty] at hn
    rw [ht'] at hn'
    cases hname : m.calleeName? id callee with
    | none => simp [hname] at hn'
    | some name =>
      simp only [hname, Except.ok.injEq] at hn hn'
      rw [hv, hv', hn, hn']
      simp
  constructor
  · rintro ⟨values', hok', hsame⟩
    have hseen := (exists_defaultValues_iff ho).mp ⟨values', hok'⟩
    rw [defaultValues_eq ho] at hok'
    intro parameter hpar callee arguments hcall
    refine ⟨hseen parameter hpar callee arguments hcall, fun ty hty => ?_⟩
    obtain ⟨i, hi⟩ := List.mem_iff_getElem?.mp hpar
    exact (hpair hok' hi hcall hty).mp
      (hsame i parameter callee arguments hi hcall (by rw [hty]; rfl))
  · intro hsees
    obtain ⟨values', hok'⟩ := (exists_defaultValues_iff ho).mpr
      fun parameter hpar callee arguments hcall =>
        (hsees parameter hpar callee arguments hcall).1
    refine ⟨values', hok', fun i parameter callee arguments hi hcall hty => ?_⟩
    rw [defaultValues_eq ho] at hok'
    obtain ⟨ty, hty⟩ := Option.isSome_iff_exists.mp hty
    exact (hpair hok' hi hcall hty).mpr
      ((hsees parameter (List.mem_of_getElem? hi) callee arguments hcall).2 ty hty)

theorem findOperations_eq (h : Lineage p m) (id : TypeId) (name : String) :
    m.findOperations id name = (m.operationTable id).find name := by
  unfold findOperations
  split
  · rfl
  · next hc =>
    cases hs : m.scope? id with
    | none =>
      rw [operationTable, operationTableTo, hs]
      rfl
    | some a =>
      rw [operationTable_eq h hs, if_neg hc]
      rfl

/-- A name without path that is the name of an operation of a class is seen from the class. -/
theorem isSome_calleeName?_of_operation (h : Lineage p m) (hparent : Path.parent callee = "")
    (hname : (m.operationTable id).overloads (Path.baseName callee) ≠ []) :
    (m.calleeName? id callee).isSome = true := by
  obtain ⟨op, ops, hops⟩ := List.exists_cons_of_ne_nil hname
  unfold calleeName?
  split
  · rfl
  · dsimp only
    rw [if_pos hparent, Option.bind_some, findOperations_eq h, OperationTable.find, hops]
    rfl

structure Unqualified (callee name : String) : Prop where
  split : TypeQuery.split (Name.normalizeQuery callee) = .ok (name, [])
  undivided : Path.splitFirst? name = none
  plain : '<' ∉ name.toList

def leavesOpen (m : Model) (scope : TypeId) (name : String) : Bool :=
  (m.scope? scope).any fun members => members.lacksType name &&
    members.used.all fun used => (m.scope? used).all (·.lacksType name)

theorem findInside_of_lacksType {shorter : TypeId → String → Search → Bool → Option TypeRef}
    {name : String} (hdiv : Path.splitFirst? name = none)
    (h : (m.scope? scope).all (·.lacksType name) = true) (search : Search) (follow : Bool) :
    m.findInside shorter scope name search follow = none := by
  unfold findInside
  cases hs : m.scope? scope with
  | none => rfl
  | some members =>
    have hlacks : members.lacksType name = true := by simpa [hs] using h
    obtain ⟨htypes, haliases⟩ := Scope.lacksType_iff.mp hlacks
    simp [htypes, haliases, hdiv]

/-- A search that finds nothing in a scope gives what it gives around it. -/
theorem findPlain_of_leavesOpen {name : String} (h : m.leavesOpen scope name = true)
    (hdiv : Path.splitFirst? name = none) :
    m.findPlain scope name .owners true = (m.owner? scope).bind fun owner =>
      m.findFrom (m.findBelow name.length) name (m.size - 1) owner .owners true := by
  obtain ⟨members, hs, hlacks⟩ := (Option.any_eq_true _ _).mp h
  obtain ⟨hown, hused⟩ := Bool.and_eq_true_iff.mp hlacks
  obtain ⟨n, hn⟩ : ∃ n, m.size = n + 1 :=
    ⟨m.size - 1, by have hk := knows_of_scope hs; simp only [Knows] at hk; omega⟩
  have hinside : m.findInside (m.findBelow name.length) scope name .owners true = none :=
    findInside_of_lacksType hdiv (by rw [hs]; exact hown) _ _
  have hbeyond : m.findInUsed (m.findBelow name.length) scope name = none := by
    rw [findInUsed, hs]
    simp only [Option.map_some, Option.bind_some, List.findSome?_eq_none_iff]
    exact fun used hmem => findInside_of_lacksType hdiv (List.all_eq_true.mp hused used hmem) _ _
  rw [findPlain, findBelow, hn, findFrom.eq_def]
  dsimp only
  rw [hs, hinside, hbeyond]
  cases m.owner? scope <;> simp

theorem findType_of_leavesOpen {name : String} (hu : Unqualified callee name)
    (ho : m.owner? id = m.owner? base) (hid : m.leavesOpen id name = true)
    (hbase : m.leavesOpen base name = true) :
    m.findType id callee .owners = m.findType base callee .owners := by
  simp only [findType, findTypeBelow, hu.split, Template.split?_eq_none hu.plain,
    findPlain_of_leavesOpen hid hu.undivided, findPlain_of_leavesOpen hbase hu.undivided, ho]
  simp

inductive SeenAlike (m : Model) (id base : TypeId) (callee : String) : Prop where
  /-- A type that lies around both, which are side by side. -/
  | type {name : String} (unqualified : Unqualified callee name)
      (siblings : m.owner? id = m.owner? base) (open_derived : m.leavesOpen id name = true)
      (open_base : m.leavesOpen base name = true)
      (found : (m.findType base callee .owners).isSome = true)
  /-- An operation of the base. -/
  | operation (unqualified : Path.parent callee = "")
      (has : (m.operationTable base).overloads (Path.baseName callee) ≠ [])
      (noType : m.findType base callee .owners = none)

/-- What a class inherits is stored in the class that declared it. If it has default values there,
the copy keeps them exactly if every name that they call is seen from the class that inherits, and
all types of the declaring class as the same; this is so for types around both and for operations
of the base. -/
theorem Reachable.inherited_defaults (h : Reachable p m) (he : e ∈ (m.operationTable id).toList)
    (hbase : e.baseClass = some base) :
    (∀ stored values, m.StoredIn base e stored → m.defaultValues stored = .ok values →
      (m.KeepsDefaults base e values ↔ m.SeesCallees id base e)) ∧
    (p.freshOperations → (∃ stored, m.StoredIn base e stored) ∧
      ((∀ parameter ∈ e.parameters, ∀ callee arguments,
        m.call? parameter = some (callee, arguments) → m.SeenAlike id base callee) →
      m.SeesCallees id base e)) := by
  refine ⟨fun stored values hst hok => ?_, fun hp => ?_⟩
  · obtain ⟨a, hs, hmem⟩ := hst.mem
    have hos : stored.owner = some base :=
      h.coherent.owned base a hs stored.entity (Scope.mem_entities.mpr (.inl ⟨stored, hmem, rfl⟩))
    exact keepsDefaults_iff (owner_of_mem_operationTable h.lineage h.coherent he) hos
      hst.parameters hok
  · obtain ⟨hstored, hnames⟩ := h.lineage.exists_stored hp he hbase
    refine ⟨hstored, fun halike parameter hpar callee arguments hcall => ?_⟩
    cases halike parameter hpar callee arguments hcall with
    | type unqualified siblings openDerived openBase found =>
      have hsame := findType_of_leavesOpen unqualified siblings openDerived openBase
      obtain ⟨ty, hty⟩ := Option.isSome_iff_exists.mp found
      have hname := calleeName?_of_findType (hsame.trans hty)
      refine ⟨hname ▸ rfl, fun ty' hty' => ?_⟩
      obtain rfl := Option.some.inj (hty.symm.trans hty')
      exact hname
    | operation unqualified has noType =>
      have hsome := isSome_calleeName?_of_operation h.lineage unqualified (hnames _ has)
      exact ⟨hsome, fun ty hty => absurd (noType.symm.trans hty) nofun⟩

def newSize : Parameter :=
  { entity := { name := "size" }, type := .raw ⟨2⟩, defaultValue := some "Size(1)" }

def resize : Operation := { entity := { name := "resize" }, parameters := [newSize] }

def resizing (path : String) : Model :=
  bare.afterAll [.addType .root (declaration .classType "" "B") true,
    .addType .root (declaration .classType path "Size") true,
    .addType .root (declaration .classType "" "D") true,
    .addOperation ⟨1⟩ resize, .addParent ⟨3⟩ ⟨1⟩]

theorem reachable_resizing (path : String) : Reachable .operationsFresh (resizing path) := by
  refine reachable_bare.afterAll fun action ha m => ?_
  simp only [List.mem_cons, List.not_mem_nil, or_false] at ha
  obtain rfl | rfl | rfl | rfl | rfl := ha
  · exact isFresh_declaration nofun nofun
  · exact isFresh_declaration nofun nofun
  · exact isFresh_declaration nofun nofun
  · exact fun _ => ⟨rfl, rfl⟩
  · trivial

/-- A type `Size` beside both classes is seen from both. -/
theorem sibling_default_kept : ∃ m, Reachable .operationsFresh m ∧
    ∃ e ∈ (m.operationTable ⟨3⟩).toList, e.baseClass = some ⟨1⟩ ∧
      ∃ stored, m.StoredIn ⟨1⟩ e stored ∧ m.defaultValues stored = .ok [some "Size(1)"] ∧
        m.KeepsDefaults ⟨1⟩ e [some "Size(1)"] := by
  have h := reachable_resizing ""
  have hentry : ∃ e ∈ ((resizing "").operationTable ⟨3⟩).toList,
      e.baseClass = some ⟨1⟩ ∧ e.parameters = [newSize] ∧
      ∃ a ∈ (resizing "").scope? ⟨1⟩, ∃ stored ∈ a.operations.toList,
        (stored.name = e.name ∧ stored.parameters = e.parameters ∧
          stored.returnType = e.returnType) ∧
        (resizing "").defaultValues stored = .ok [some "Size(1)"] := by
    decide +kernel
  obtain ⟨e, he, hbase, hparameters, a, hs, stored, hmem, ⟨hname, hp, hr⟩, hok⟩ := hentry
  have hst : (resizing "").StoredIn ⟨1⟩ e stored := ⟨⟨a, hs, hmem⟩, hname, hp, hr⟩
  have hsize : (resizing "").call? newSize = some ("Size", "1") := by decide +kernel
  have halike : (resizing "").SeenAlike ⟨3⟩ ⟨1⟩ "Size" :=
    .type ⟨rfl, by decide +kernel, by decide +kernel⟩ (by decide +kernel) (by decide +kernel)
      (by decide +kernel) (by decide +kernel)
  obtain ⟨hkeeps, hfresh⟩ := h.inherited_defaults he hbase
  have hsees := (hfresh trivial).2 fun parameter hpar callee arguments hcall => by
    rw [hparameters] at hpar
    obtain rfl := List.mem_singleton.mp hpar
    obtain ⟨rfl, -⟩ := Prod.mk.inj (Option.some.inj (hcall.symm.trans hsize))
    exact halike
  exact ⟨_, h, e, he, hbase, stored, hst, hok, (hkeeps stored _ hst hok).mpr hsees⟩

/-- A type `Size` inside of `B` is not seen from `D`, so the default value is understood in `B`
only. -/
theorem nested_default_lost : ∃ m, Reachable .operationsFresh m ∧
    ∃ e ∈ (m.operationTable ⟨3⟩).toList, e.owner = some ⟨3⟩ ∧ e.baseClass = some ⟨1⟩ ∧
      (∃ stored, m.StoredIn ⟨1⟩ e stored ∧ m.defaultValues stored = .ok [some "B::Size(1)"]) ∧
        ∃ failure, m.defaultValues e = .error failure := by
  have hentry : ∃ e ∈ ((resizing "B").operationTable ⟨3⟩).toList,
      e.owner = some ⟨3⟩ ∧ e.baseClass = some ⟨1⟩ ∧
      (∃ a ∈ (resizing "B").scope? ⟨1⟩, ∃ stored ∈ a.operations.toList,
        (stored.name = e.name ∧ stored.parameters = e.parameters ∧
          stored.returnType = e.returnType) ∧
        (resizing "B").defaultValues stored = .ok [some "B::Size(1)"]) ∧
      (resizing "B").defaultValues e = .error (.misparsedDefaultValue "Size(1)"
        "D::resize(B::Size size = Size(1))") := by
    decide +kernel
  obtain ⟨e, he, howner, hbase, ⟨a, hs, stored, hmem, ⟨hname, hp, hr⟩, hok⟩, hfails⟩ := hentry
  exact ⟨_, reachable_resizing "B", e, he, howner, hbase,
    ⟨stored, ⟨⟨a, hs, hmem⟩, hname, hp, hr⟩, hok⟩, _, hfails⟩

end Model

end ApiModel
