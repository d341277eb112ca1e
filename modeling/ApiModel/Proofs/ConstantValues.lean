import ApiModel.Proofs.AbsoluteNames
import ApiModel.Proofs.Callees
import ApiModel.Proofs.ExportCharacters

/-!
Values of constants on the C side. Nothing is sought there: a word that begins with a letter is
taken for a name in the scope of the constant whose value it is. So what the word finds is exported
under another name if it has an alias or an export name of its own, or comes from a scope whose path
is mangled in another way.
-/

namespace ApiModel

namespace ExportName

variable {cs : List Char} {c : Char}

theorem mangleChars_eq_self (h : ∀ c ∈ cs, Text.isIdentChar c = true) : mangleChars cs = cs := by
  have hop : operatorName? cs = none := by
    refine Option.filter_eq_none_iff.mpr fun ⟨before, behind⟩ hcut => ?_
    have hbehind : ∀ c ∈ behind, Text.isIdentChar c = true := fun c hc =>
      h c (cutOperator_eq_some hcut ▸ List.mem_append_right _ hc)
    cases behind with
    | nil => simp
    | cons c behind => simp [hbehind c List.mem_cons_self]
  rw [mangleChars, hop, manglePath_eq_self h]

theorem dropBlanks_eq_self (h : ∀ c ∈ cs, Text.isIdentChar c = true) : Text.dropBlanks cs = cs :=
  List.filter_eq_self.mpr fun c hc => by rw [Name.isBlank_of_isIdentChar (h c hc)]; rfl

theorem mangle_qualify_identifier {libraryPrefix path name : String} (hp : PlainPath path)
    (hn : Name.IsIdentifier name) : mangle libraryPrefix (Path.qualify path name) =
      libraryPrefix ++ String.ofList (scopeFront path ++ name.toList) := by
  have hblanks := dropBlanks_eq_self hn.chars
  rw [mangle_qualify hp, hblanks, mangleChars_eq_self hn.chars]
  rw [hblanks]
  intro hcolon
  exact hn.not_mem (by decide) (List.mem_of_head? hcolon)

theorem mangleFront_ne_nil (c : Char) (cs : List Char) : mangleFront (c :: cs) ≠ [] := fun h =>
  List.cons_ne_nil c cs (mangleFront_eq_nil h)

/-- What is put behind a path may end a separator with its first character, but not more. -/
theorem length_mangleFront_lt {rest : List Char} (hrest : 2 ≤ rest.length) (cs : List Char) :
    (mangleFront cs).length < (mangleFront (cs ++ rest)).length := by
  fun_induction mangleFront cs with
  | case1 =>
    cases rest with
    | nil => simp at hrest
    | cons c rest => simpa using List.length_pos_iff.mpr (mangleFront_ne_nil c rest)
  | case2 cs ih | case3 cs ih | case4 cs ih | case5 cs ih => simpa [mangleFront] using ih
  | case6 c cs hseparator hclose hpointer hreference ih =>
    by_cases hends : c = ':' ∧ cs = [] ∧ rest.head? = some ':'
    · obtain ⟨rfl, rfl, hhead⟩ := hends
      rcases rest with _ | ⟨c, _ | ⟨d, rest⟩⟩
      · cases hhead
      · simp at hrest
      · obtain rfl := Option.some.inj hhead
        simpa [mangleFront] using List.length_pos_iff.mpr (mangleFront_ne_nil d rest)
    · rw [List.cons_append, mangleFront]
      · simpa using ih
      · rintro ds rfl hds
        cases cs with
        | nil => exact hends ⟨rfl, rfl, by rw [List.nil_append] at hds; rw [hds]; rfl⟩
        | cons d cs => exact hseparator cs rfl (by rw [(List.cons.inj hds).1])
      · exact hclose
      · exact hpointer
      · exact hreference

theorem scopeFront_eq (path : String) :
    scopeFront path = mangleFront (Text.dropBlanks (Path.front path)) := by
  unfold scopeFront Path.front
  split
  · rfl
  · rw [Text.dropBlanks_append]
    rfl

/-- The fronts of nested scopes tell their paths apart. -/
theorem scopeFront_eq_iff {path path' : String} {between : List Char}
    (hfront : Path.front path = Path.front path' ++ between)
    (hbetween : between = [] ∨ [':', ':'] <:+ between) :
    scopeFront path = scopeFront path' ↔ path = path' := by
  refine ⟨fun h => ?_, fun h => h ▸ rfl⟩
  obtain rfl | ⟨rest, rfl⟩ := hbetween
  · exact Path.front_injective (hfront.trans (List.append_nil _))
  · have hlength : 2 ≤ (Text.dropBlanks (rest ++ [':', ':'])).length := by
      simp [Text.dropBlanks, Text.isBlank]
    have hlt := length_mangleFront_lt hlength (Text.dropBlanks (Path.front path'))
    rw [← Text.dropBlanks_append, ← hfront, ← scopeFront_eq, ← scopeFront_eq, h] at hlt
    exact absurd hlt (Nat.lt_irrefl _)

end ExportName

namespace Constant

variable {cs w : List Char}

theorem words_of_not_mem (h : ' ' ∉ w) : words w = [w] := by
  induction w with
  | nil => rfl
  | cons c w ih =>
    rw [List.mem_cons, not_or] at h
    rw [words, ih h.2]
    · rfl
    · exact Ne.symm h.1

theorem words_append (h : ' ' ∉ w) (rest : List Char) :
    words (w ++ ' ' :: rest) = w :: words rest := by
  induction w with
  | nil => rfl
  | cons c w ih =>
    rw [List.mem_cons, not_or] at h
    rw [List.cons_append, words, ih h.2]
    · rfl
    · exact Ne.symm h.1

theorem words_ne_nil (cs : List Char) : words cs ≠ [] := by
  fun_induction words cs with
  | case1 => simp
  | case2 => simp
  | case3 c cs _ ih => cases hw : words cs <;> simp [Path.consPart]

theorem not_mem_of_mem_words (h : w ∈ words cs) : ' ' ∉ w := by
  fun_induction words cs generalizing w with
  | case1 =>
    rw [List.mem_singleton.mp h]
    exact List.not_mem_nil
  | case2 cs ih =>
    rcases List.mem_cons.mp h with rfl | h
    · exact List.not_mem_nil
    · exact ih h
  | case3 c cs hc ih =>
    have hne : ' ' ≠ c := fun he => hc he.symm
    cases hw : words cs with
    | nil => exact absurd hw (words_ne_nil cs)
    | cons first others =>
      rw [hw] at h ih
      rcases List.mem_cons.mp h with rfl | h
      · simpa [hne] using ih List.mem_cons_self
      · exact ih (List.mem_cons_of_mem first h)

theorem words_intercalate {texts : List (List Char)} (hne : texts ≠ [])
    (h : ∀ w ∈ texts, ' ' ∉ w) : words ([' '].intercalate texts) = texts := by
  induction texts with
  | nil => exact absurd rfl hne
  | cons w texts ih =>
    have hw := h w List.mem_cons_self
    cases texts with
    | nil => rw [List.intercalate_singleton, words_of_not_mem hw]
    | cons next texts =>
      rw [List.intercalate_cons_cons, List.append_assoc, List.singleton_append, words_append hw,
        ih (List.cons_ne_nil next texts) fun v hv => h v (List.mem_cons_of_mem w hv)]

def IsMapped (word : String) : Prop := word.toList.head?.any Char.isAlpha = true

instance (word : String) : Decidable (IsMapped word) := by unfold IsMapped; infer_instance

variable {libraryPrefix word : String} {c k : Constant}

theorem exportWord_of_mapped (h : IsMapped word) : c.exportWord libraryPrefix word.toList =
    ExportName.mangle libraryPrefix (Path.qualify c.entity.scopePath word) := by
  unfold IsMapped at h
  rw [exportWord, if_pos h, String.ofList_toList]

theorem exportWord_of_not_mapped (h : ¬ IsMapped word) :
    c.exportWord libraryPrefix word.toList = word := by
  unfold IsMapped at h
  rw [exportWord, if_neg h, String.ofList_toList]

theorem space_not_mem_exportWord (hp : ' ' ∉ libraryPrefix.toList) (hw : ' ' ∉ w) :
    ' ' ∉ (c.exportWord libraryPrefix w).toList := by
  unfold exportWord
  split
  · intro h
    rcases ExportName.isIdentChar_of_mem_mangle h with h | h
    · exact hp h
    · exact absurd h (by decide)
  · rwa [String.toList_ofList]

theorem exportWord_ne_self (hp : ∀ ch ∈ libraryPrefix.toList, Text.isIdentChar ch = true)
    (h : IsMapped word) (hw : ¬ Name.IsIdentifier word) :
    c.exportWord libraryPrefix word.toList ≠ word := by
  rw [exportWord_of_mapped h]
  intro heq
  refine hw ⟨?_, fun ch hch => ?_⟩
  · rintro rfl
    cases h
  · rw [← heq] at hch
    exact (ExportName.isIdentChar_of_mem_mangle hch).elim (hp ch) id

section

variable (hcache : k.entity.exportCache = none) (hname : k.name = word)
  (hw : Name.IsIdentifier word) (ho : k.entity.exportOverride = none)
include hcache hname hw ho

theorem exportName_of_unaliased (ha : k.entity.aliasName = none)
    (hk : ExportName.PlainPath k.entity.scopePath) : k.entity.exportName libraryPrefix =
      libraryPrefix ++ String.ofList (ExportName.scopeFront k.entity.scopePath ++ word.toList) := by
  have hentity : k.entity.name = word := hname
  rw [Entity.exportName_eq hcache, ho, ha, Option.getD_none, Option.getD_none, hentity,
    ExportName.mangle_qualify_identifier hk hw]

variable (h : IsMapped word) (hc : ExportName.PlainPath c.entity.scopePath)
  (hk : ExportName.PlainPath k.entity.scopePath)
include h hc hk

theorem exportWord_eq_iff_of_unaliased (ha : k.entity.aliasName = none) :
    c.exportWord libraryPrefix word.toList = k.entity.exportName libraryPrefix ↔
      ExportName.scopeFront c.entity.scopePath = ExportName.scopeFront k.entity.scopePath := by
  rw [exportWord_of_mapped h, ExportName.mangle_qualify_identifier hc hw,
    exportName_of_unaliased hcache hname hw ho ha hk]
  simp [String.ofList_inj]

omit hname in
theorem exportWord_eq_iff_of_aliased {other : String} (ha : k.entity.aliasName = some other)
    (hother : (Text.dropBlanks other.toList).head? ≠ some ':') :
    c.exportWord libraryPrefix word.toList = k.entity.exportName libraryPrefix ↔
      ExportName.scopeFront c.entity.scopePath ++ word.toList =
        ExportName.scopeFront k.entity.scopePath ++
          ExportName.mangleChars (Text.dropBlanks other.toList) := by
  rw [exportWord_of_mapped h, ExportName.mangle_qualify_identifier hc hw,
    Entity.exportName_eq hcache, ho, ha, Option.getD_none, Option.getD_some,
    ExportName.mangle_qualify hk hother, String.append_right_inj, String.ofList_inj]

end

end Constant

namespace Model

variable {p : Policy} {m m' : Model} {s u : TypeId} {word : String} {c k : Constant}

/-- The export names of stored constants are never remembered. -/
def ConstantsUnremembered (m : Model) : Prop :=
  ∀ s a, m.scope? s = some a →
    ∀ name c, a.constants.get? name = some c → c.entity.exportCache = none

theorem ScopeStep.constantsUnremembered {a b : Scope} (h : ScopeStep p m s a b)
    (ha : ∀ name c, a.constants.get? name = some c → c.entity.exportCache = none) :
    ∀ name c, b.constants.get? name = some c → c.entity.exportCache = none := by
  cases h with
  | typeEntered =>
    unfold Scope.enterType
    split <;> exact ha
  | usedAdded =>
    unfold Scope.use
    split <;> exact ha
  | constantAdded new forgotten =>
    intro name c hc
    rw [OrderedMap.get?_insert] at hc
    split at hc
    · cases hc
      exact forgotten
    · exact ha name c hc
  | pathsWritten path =>
    intro name c hc
    rw [Scope.setMemberPaths, OrderedMap.get?_mapValues] at hc
    obtain ⟨old, -, rfl⟩ := Option.map_eq_some_iff.mp hc
    rfl
  | _ => exact ha

theorem Reachable.constantsUnremembered (h : Reachable p m) : m.ConstantsUnremembered := by
  refine h.induct (fun m hm s a ha => ?_) fun _ hP hc =>
    hc.forall_scope (fun _ _ _ => nofun) (fun _ _ _ ha hstep => hstep.constantsUnremembered ha) hP
  rw [scope?_rootOnly hm ha]
  exact fun _ _ => nofun

theorem constant?_eq_some_iff : m.constant? u word = some k ↔
    ∃ a, m.scope? u = some a ∧ a.constants.get? word = some k := Option.bind_eq_some_iff

section

variable (h : Reachable p m) (hk : m.constant? u word = some k)
include h hk

theorem Reachable.naming_of_constant? : k.name = word ∧ k.entity.exportCache = none := by
  obtain ⟨a, ha, hget⟩ := constant?_eq_some_iff.mp hk
  exact ⟨h.constantsNamed u a ha word k hget, h.constantsUnremembered u a ha word k hget⟩

theorem Reachable.scopePath_of_constant? (hj : m.Joined u) :
    k.entity.scopePath = m.scopePath u := by
  obtain ⟨a, ha, hget⟩ := constant?_eq_some_iff.mp hk
  exact (h.coherent.placed u hj a ha).2 k.entity
    (Scope.mem_entities.mpr (.inr (.inl ⟨k, OrderedMap.mem_values_of_get? hget, rfl⟩)))

end

theorem exists_constant?_of_findConstantFrom (hp : Path.parent word = "") {climbs : Nat}
    {search : Search} (hk : m.findConstantFrom word climbs s search = some k) :
    ∃ u, m.constant? u word = some k := by
  induction climbs using Nat.strong_induction_on generalizing s search with
  | _ climbs ih =>
  rw [findConstantFrom.eq_def] at hk
  dsimp only at hk
  split at hk
  · cases hk
  next a ha =>
  rw [findConstantInside_of_parent hp] at hk
  rcases Option.or_eq_some_iff.mp hk with hk | ⟨-, hk⟩
  · exact ⟨s, hk⟩
  rcases Option.or_eq_some_iff.mp hk with hk | ⟨-, hk⟩
  · obtain ⟨used, -, hk⟩ := List.exists_of_findSome?_eq_some hk
    rw [findConstantInside_of_parent hp] at hk
    exact ⟨used, hk⟩
  split at hk
  · exact ih _ (Nat.lt_succ_self _) hk
  · cases hk

theorem exists_constant?_of_findConstant (hw : Name.IsIdentifier word) {search : Search}
    (hk : m.findConstant s word search = some k) : ∃ u, m.constant? u word = some k := by
  rw [findConstant, Name.normalize_eq_self hw.isNormal] at hk
  exact exists_constant?_of_findConstantFrom (by rw [Path.parent, hw.isSingle.undivided]) hk

structure FoundExported (m : Model) (s : TypeId) (c k : Constant) (word text : String) : Prop where
  /-- An export name of its own counts only where it is the one that the word has anyway. -/
  overridden : ∀ own, k.entity.exportOverride = some own →
    (text = k.entity.exportName m.libraryPrefix ↔
      ExportName.mangle m.libraryPrefix (Path.qualify c.entity.scopePath word) = own)
  /-- So does an alias. -/
  aliased : ∀ other, k.entity.exportOverride = none → k.entity.aliasName = some other →
    (Text.dropBlanks other.toList).head? ≠ some ':' →
    ExportName.PlainPath c.entity.scopePath → ExportName.PlainPath k.entity.scopePath →
    (text = k.entity.exportName m.libraryPrefix ↔
      ExportName.scopeFront c.entity.scopePath ++ word.toList =
        ExportName.scopeFront k.entity.scopePath ++
          ExportName.mangleChars (Text.dropBlanks other.toList))
  /-- Without them it depends on the two paths. -/
  unaliased : k.entity.exportOverride = none → k.entity.aliasName = none →
    ExportName.PlainPath c.entity.scopePath → ExportName.PlainPath k.entity.scopePath →
    (text = k.entity.exportName m.libraryPrefix ↔
      ExportName.scopeFront c.entity.scopePath = ExportName.scopeFront k.entity.scopePath)
  /-- A constant of the same scope is written by its export name. -/
  beside : k.entity.exportOverride = none → k.entity.aliasName = none →
    m.constant? s word = some k → m.Joined s → text = k.entity.exportName m.libraryPrefix
  /-- A constant of a scope around is not, unless this scope has the same path. -/
  around : k.entity.exportOverride = none → k.entity.aliasName = none →
    ∀ t, m.constant? t word = some k → m.Below s .root → m.Inside s t →
      ExportName.PlainPath (m.scopePath s) → ExportName.PlainPath (m.scopePath t) →
      (text = k.entity.exportName m.libraryPrefix ↔ m.scopePath s = m.scopePath t)

/-- What becomes of a word in the value of the constant `c` of the scope `s`. -/
structure WordExported (m : Model) (s : TypeId) (c : Constant) (word text : String) : Prop where
  kept : ¬ Constant.IsMapped word → text = word
  /-- Of the words that begin with a letter only identifiers may be kept. -/
  changed : Constant.IsMapped word → ¬ Name.IsIdentifier word →
    (∀ ch ∈ m.libraryPrefix.toList, Text.isIdentChar ch = true) → text ≠ word
  found : Constant.IsMapped word → Name.IsIdentifier word → ∀ k,
    m.findConstant s word .owners = some k → m.FoundExported s c k word text
  /-- A constant whose name begins with no letter is found, too, but never written. -/
  missed : ¬ Constant.IsMapped word → Name.IsIdentifier word → ∀ k,
    m.findConstant s word .owners = some k → k.entity.exportOverride = none →
    k.entity.aliasName = none → ExportName.PlainPath k.entity.scopePath → m.libraryPrefix ≠ "" →
    text ≠ k.entity.exportName m.libraryPrefix

section

variable (h : Reachable p m) (hc : c ∈ (m.members s).constants.values)
  (hw : Name.IsIdentifier word)
include h hc hw

theorem Reachable.foundExported (hmapped : Constant.IsMapped word)
    (hk : m.findConstant s word .owners = some k) :
    m.FoundExported s c k word (c.exportWord m.libraryPrefix word.toList) := by
  obtain ⟨u, hstored⟩ := exists_constant?_of_findConstant hw hk
  obtain ⟨hname, hcache⟩ := h.naming_of_constant? hstored
  have hcs : m.constant? s c.name = some c := constant?_name h.constantsNamed hc
  refine ⟨fun own ho => ?_, fun other ho ha hother hpc hpk => ?_, fun ho ha hpc hpk => ?_,
    fun ho ha hks hj => ?_, fun ho ha t hkt hb hi hps hpt => ?_⟩
  · rw [Constant.exportWord_of_mapped hmapped, Entity.exportName_eq hcache, ho, Option.getD_some]
  · exact Constant.exportWord_eq_iff_of_aliased hcache hw ho hmapped hpc hpk ha hother
  · exact Constant.exportWord_eq_iff_of_unaliased hcache hname hw ho hmapped hpc hpk ha
  · have hentity : k.entity.name = word := hname
    rw [Constant.exportWord_of_mapped hmapped, Entity.exportName_eq hcache, ho, ha,
      Option.getD_none, Option.getD_none, hentity, h.scopePath_of_constant? hcs hj,
      h.scopePath_of_constant? hks hj]
  · -- the front of the path of `s` goes on where that of `t` ends
    obtain ⟨hbt, between, hfront, hbetween⟩ :=
      hb.front_scopePath h.sound.isTree h.coherent hi
    have hcpath := h.scopePath_of_constant? hcs (eq_root_or_owned_of_inside hb.inside)
    have hkpath := h.scopePath_of_constant? hkt (eq_root_or_owned_of_inside hbt.inside)
    rw [← ExportName.scopeFront_eq_iff hfront hbetween, ← hcpath, ← hkpath]
    exact Constant.exportWord_eq_iff_of_unaliased hcache hname hw ho hmapped (hcpath ▸ hps)
      (hkpath ▸ hpt) ha

end

theorem Reachable.wordExported (h : Reachable p m) (hc : c ∈ (m.members s).constants.values)
    (word : String) : m.WordExported s c word (c.exportWord m.libraryPrefix word.toList) where
  kept := Constant.exportWord_of_not_mapped
  changed hmapped hw hp := Constant.exportWord_ne_self hp hmapped hw
  found hmapped hw _ hk := h.foundExported hc hw hmapped hk
  missed hmapped hw k hk ho ha hpk hp := by
    obtain ⟨u, hstored⟩ := exists_constant?_of_findConstant hw hk
    obtain ⟨hname, hcache⟩ := h.naming_of_constant? hstored
    rw [Constant.exportWord_of_not_mapped hmapped,
      Constant.exportName_of_unaliased hcache hname hw ho ha hpk]
    -- the prefix makes the export name longer than the word
    intro heq
    have hlength := congrArg (fun text => text.toList.length) heq
    have hpos : 0 < m.libraryPrefix.toList.length := by simpa [List.length_pos_iff] using hp
    simp only [String.toList_append, String.toList_ofList, List.length_append] at hlength
    omega

/-- The value on the C side has as many words as the value, each made of the word at its place. A
word that begins with no letter is copied; any other becomes the export name of the constant that it
finds exactly if this is mangled from the word and from the path of the scope that has the value. -/
theorem Reachable.exportSignature_words (h : Reachable p m)
    (hc : c ∈ (m.members s).constants.values) : ∃ texts : List String,
      c.exportSignature m.libraryPrefix =
        "const int " ++ c.entity.exportName m.libraryPrefix ++ " = " ++ " ".intercalate texts ∧
      (' ' ∉ m.libraryPrefix.toList →
        (Constant.words (" ".intercalate texts).toList).map String.ofList = texts) ∧
      List.Forall₂ (m.WordExported s c) ((Constant.words c.value.toList).map String.ofList)
        texts := by
  refine ⟨_, rfl, fun hp => ?_, ?_⟩
  · have hspaces : ∀ text ∈ ((Constant.words c.value.toList).map
        (c.exportWord m.libraryPrefix)).map String.toList, ' ' ∉ text := by
      simp only [List.forall_mem_map]
      exact fun w hw => Constant.space_not_mem_exportWord hp (Constant.not_mem_of_mem_words hw)
    have hspace : " ".toList = [' '] := rfl
    rw [String.toList_intercalate, hspace, Constant.words_intercalate _ hspaces]
    · simp [Function.comp_def]
    · simpa using Constant.words_ne_nil c.value.toList
  · rw [List.forall₂_map_left_iff, List.forall₂_map_right_iff, List.forall₂_same]
    intro w _
    have hexported := h.wordExported hc (String.ofList w)
    rwa [String.toList_ofList] at hexported

/-- A constant `B` whose value names the constant `A` beside it. -/
theorem exportSignature_words_of_neighbours : ∃ m c k, Reachable .free m ∧
    c ∈ (m.members .root).constants.values ∧ m.findConstant .root "A" .owners = some k ∧
    m.constant? .root "A" = some k ∧ k.entity.exportName m.libraryPrefix = "rbind_A" ∧
    c.exportSignature m.libraryPrefix = "const int rbind_B = rbind_A + 1" ∧
    ∃ texts : List String,
      c.exportSignature m.libraryPrefix =
        "const int " ++ c.entity.exportName m.libraryPrefix ++ " = " ++ " ".intercalate texts ∧
      (' ' ∉ m.libraryPrefix.toList →
        (Constant.words (" ".intercalate texts).toList).map String.ofList = texts) ∧
      List.Forall₂ (m.WordExported .root c) ((Constant.words c.value.toList).map String.ofList)
        texts := by
  let actions : List Action :=
    [.addConstant .root { entity := { name := "A" }, value := "1" },
     .addConstant .root { entity := { name := "B" }, value := "A + 1" }]
  have h : Reachable .free (bare.afterAll actions) := by
    refine reachable_bare.afterAll ?_
    simp only [actions, List.forall_mem_cons, List.not_mem_nil, false_imp_iff, implies_true,
      and_true]
    exact ⟨fun _ => nofun, fun _ => nofun⟩
  have hnames : (bare.afterAll actions).libraryPrefix = "rbind_" ∧
      ((bare.afterAll actions).constant? .root "A").map (·.entity.exportName "rbind_") =
        some "rbind_A" ∧
      ((bare.afterAll actions).constant? .root "B").map (·.exportSignature "rbind_") =
        some "const int rbind_B = rbind_A + 1" ∧
      (bare.afterAll actions).findConstant .root "A" .owners =
        (bare.afterAll actions).constant? .root "A" := by decide +kernel
  obtain ⟨hlibrary, hA, hB, hfind⟩ := hnames
  obtain ⟨k, hk, hA⟩ := Option.map_eq_some_iff.mp hA
  obtain ⟨c, hc, hB⟩ := Option.map_eq_some_iff.mp hB
  have hstored := OrderedMap.mem_values_of_get? (constant?_eq_get?_members .. ▸ hc)
  exact ⟨_, c, k, h, hstored, hfind.trans hk, hk, hlibrary ▸ hA, hlibrary ▸ hB,
    h.exportSignature_words hstored⟩

/-- The constant `A` has the alias `X`, and `B` names it. What is written is not the export name. -/
theorem aliased_constant_miswritten : ∃ m c k, Reachable .free m ∧
    c ∈ (m.members .root).constants.values ∧ Name.IsIdentifier "A" ∧
    (Constant.words c.value.toList)[0]? = some "A".toList ∧
    m.findConstant .root "A" .owners = some k ∧
    k.entity.exportName m.libraryPrefix = "rbind_X" ∧
    (Constant.words (c.exportValue m.libraryPrefix).toList)[0]? = some "rbind_A".toList := by
  let actions : List Action :=
    [.addConstant .root { entity := { name := "A", aliasName := some "X" }, value := "1" },
     .addConstant .root { entity := { name := "B" }, value := "A + 1" }]
  have h : Reachable .free (bare.afterAll actions) := by
    refine reachable_bare.afterAll ?_
    simp only [actions, List.forall_mem_cons, List.not_mem_nil, false_imp_iff, implies_true,
      and_true]
    exact ⟨fun _ => nofun, fun _ => nofun⟩
  have hnames : (bare.afterAll actions).libraryPrefix = "rbind_" ∧
      ((bare.afterAll actions).findConstant .root "A" .owners).map
        (·.entity.exportName "rbind_") = some "rbind_X" ∧
      ((bare.afterAll actions).constant? .root "B").map (fun c =>
        ((Constant.words c.value.toList)[0]?,
          (Constant.words (c.exportValue "rbind_").toList)[0]?)) =
        some (some "A".toList, some "rbind_A".toList) := by decide +kernel
  obtain ⟨hlibrary, hA, hB⟩ := hnames
  obtain ⟨k, hk, hA⟩ := Option.map_eq_some_iff.mp hA
  obtain ⟨c, hc, hB⟩ := Option.map_eq_some_iff.mp hB
  obtain ⟨hword, htext⟩ := Prod.mk.inj hB
  exact ⟨_, c, k, h, OrderedMap.mem_values_of_get? (constant?_eq_get?_members .. ▸ hc),
    ⟨by decide, List.all_eq_true.mp (by decide)⟩, hword, hk, hlibrary ▸ hA, hlibrary ▸ htext⟩

end Model

end ApiModel
