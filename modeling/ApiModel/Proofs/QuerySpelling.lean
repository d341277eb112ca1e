import ApiModel.Proofs.Identifiers
import ApiModel.Proofs.ReadOnly

/-!
Spellings of type queries. Blanks, markers and free-standing consts may follow the name of a type,
and of these only the markers are read: all spellings with the same markers are the same query. The
exception is a name that ends with `unsigned`, where the blank behind it is taken for the one in
`unsigned int`.
-/

namespace ApiModel

/-- The text consists of blanks, of these markers, and of consts that no letters follow. -/
inductive Trails : (text markers : List Char) → Prop
  | nil : Trails [] []
  | blank {c : Char} {text markers : List Char} (blank : Text.isBlank c = true)
      (rest : Trails text markers) : Trails (c :: text) markers
  | marker {c : Char} {text markers : List Char} (marker : TypeQuery.isMarker c = true)
      (rest : Trails text markers) : Trails (c :: text) (c :: markers)
  | keyword {text markers : List Char} (alone : Text.isBoundary text.head? = true)
      (rest : Trails text markers) : Trails ("const".toList ++ text) markers

namespace Text

variable {p : Char → Bool} {c sep : Char} {cs ds front rest word replacement : List Char}

theorem isIdentChar_of_isBlank (h : isBlank c = true) : isIdentChar c = false := by
  rw [← Bool.not_eq_true]
  intro hc
  rw [Name.isBlank_of_isIdentChar hc] at h
  cases h

theorem dropEndWhile_append_of_forall (h : ∀ c ∈ cs, p c = false) :
    dropEndWhile p (cs ++ ds) = cs ++ dropEndWhile p ds := by
  rw [dropEndWhile_append, dropEndWhile_eq_self h]
  split
  · next hnil => rw [hnil, List.append_nil]
  · rfl

theorem dropEndWhile_cons_of_ne_nil (h : dropEndWhile p (c :: cs) ≠ []) :
    dropEndWhile p (c :: cs) = c :: dropEndWhile p cs := by
  rw [dropEndWhile] at h ⊢
  split at h
  · next hnil =>
    split at h
    · exact absurd rfl h
    · next hc => rw [hnil, if_neg hc]
  · next rest hrest => rfl

theorem isIdentChar_of_mem_unsigned : ∀ c ∈ "unsigned".toList, isIdentChar c = true :=
  List.all_eq_true.mp (by decide)

theorem removeConst_append_of_forall (h : ∀ d ∈ ds, isIdentChar d = false) :
    removeConst (cs ++ ds) = removeConst cs ++ ds := by
  induction ds generalizing cs with
  | nil => rw [List.append_nil, List.append_nil]
  | cons d ds ih =>
    obtain ⟨hd, hds⟩ := List.forall_mem_cons.mp h
    have hrest : removeConst ([] ++ ds) = removeConst [] ++ ds := ih hds
    rw [removeConst_append_cons hd]
    exact congrArg (removeConst cs ++ d :: ·) hrest

theorem replaceFrom_length (pattern replacement : List Char) (cs ds : List Char) :
    replaceFrom pattern replacement cs.length (cs ++ ds) = replaceAll pattern replacement ds := by
  induction cs with
  | nil => rfl
  | cons c cs ih => simpa [replaceFrom] using ih

/-- Where letters end, the word and the separator are found only if the letters end with the word
and the separator follows them. -/
theorem not_infix_of_not_suffix (hword : word ≠ []) (hletters : ∀ c ∈ word, isIdentChar c = true)
    (hsep : isIdentChar sep = false) (hfront : ∀ c ∈ front, isIdentChar c = true)
    (hrest : ∀ c ∈ rest, isIdentChar c = false) (h : ¬ (word <:+ front ∧ rest.head? = some sep)) :
    ¬ word ++ [sep] <:+: front ++ rest := by
  rintro ⟨before, behind, he⟩
  have he : (before ++ word) ++ sep :: behind = front ++ rest := by simpa using he
  have hends : before ++ word = front → rest = sep :: behind → False := fun hfronts hrests =>
    h ⟨⟨before, hfronts⟩, by rw [hrests, List.head?_cons]⟩
  obtain ⟨more, hfronts, hrests⟩ | ⟨more, hfronts, hrests⟩ := List.append_eq_append_iff.mp he
  · cases more with
    | nil => exact hends (by rw [hfronts, List.append_nil]) hrests.symm
    | cons d more =>
      obtain ⟨rfl, -⟩ := List.cons.inj hrests
      have hletter := hfront sep (by rw [hfronts]; simp)
      rw [hsep] at hletter
      cases hletter
  · cases hmore : more.getLast? with
    | none =>
      obtain rfl := List.getLast?_eq_none_iff.mp hmore
      exact hends (by rw [hfronts, List.append_nil]) hrests
    | some d =>
      -- what the word has behind the letters ends with a letter of the word
      have hlast : word.getLast? = some d := by
        have hnil : more ≠ [] := by
          rintro rfl
          cases hmore
        rw [← List.getLast?_append_of_ne_nil before hword, hfronts,
          List.getLast?_append_of_ne_nil front hnil, hmore]
      have hletter := hletters d (List.mem_of_getLast? hlast)
      rw [hrest d (by rw [hrests]; exact List.mem_append_left _ (List.mem_of_getLast? hmore))]
        at hletter
      cases hletter

theorem replaceAll_suffix (hword : word ≠ []) (hletters : ∀ c ∈ word, isIdentChar c = true)
    (hsep : isIdentChar sep = false) (hfront : ∀ c ∈ front, isIdentChar c = true)
    (hrest : ∀ c ∈ rest, isIdentChar c = false) :
    replaceAll (word ++ [sep]) replacement (front ++ word ++ sep :: rest) =
      front ++ replacement ++ rest := by
  obtain ⟨c, letters, rfl⟩ := List.exists_cons_of_ne_nil hword
  induction front with
  | nil =>
    have hskip : replaceFrom (c :: letters ++ [sep]) replacement (letters ++ [sep]).length
        ((letters ++ [sep]) ++ rest) = replaceAll (c :: letters ++ [sep]) replacement rest :=
      replaceFrom_length _ _ _ _
    have hnone : ¬ c :: letters ++ [sep] <:+: rest := fun hi => by
      have hc := hrest c (hi.subset (by simp))
      rw [hletters c List.mem_cons_self] at hc
      cases hc
    have hfound : (c :: letters ++ [sep]).isPrefixOf (c :: ((letters ++ [sep]) ++ rest)) = true :=
      List.isPrefixOf_iff_prefix.mpr ⟨rest, by simp⟩
    have htext : [] ++ c :: letters ++ sep :: rest = c :: ((letters ++ [sep]) ++ rest) := by simp
    rw [htext, replaceAll, replaceFrom, if_pos hfound, List.cons_append, List.length_cons,
      Nat.add_sub_cancel, ← List.cons_append, hskip, replaceAll_eq_self hnone]
    rfl
  | cons d front ih =>
    obtain ⟨hd, hfront⟩ := List.forall_mem_cons.mp hfront
    have hnot : (c :: letters ++ [sep]).isPrefixOf (d :: (front ++ c :: letters ++ sep :: rest)) =
        false := by
      rw [Bool.eq_false_iff, ne_eq, List.isPrefixOf_iff_prefix]
      intro hprefix
      have hletters' : c :: letters ++ [sep] <+: d :: (front ++ c :: letters) :=
        List.prefix_of_prefix_length_le hprefix ⟨sep :: rest, by simp⟩ (by simp)
      have hmem : sep ∈ d :: (front ++ c :: letters) := hletters'.subset (by simp)
      have hletter : isIdentChar sep = true := by
        obtain rfl | hmem := List.mem_cons.mp hmem
        · exact hd
        · exact (List.mem_append.mp hmem).elim (hfront sep) (hletters sep)
      rw [hsep] at hletter
      cases hletter
    show replaceFrom _ _ 0 (d :: (front ++ c :: letters ++ sep :: rest)) = _
    rw [replaceFrom, hnot, if_neg (by simp)]
    exact congrArg (d :: ·) (ih hfront)

end Text

namespace Trails

variable {text markers : List Char}

theorem trimEnd (h : Trails text markers) : Trails (Text.trimEnd text) markers := by
  induction h with
  | nil => exact .nil
  | @blank c text markers hblank _ ih =>
    by_cases hnil : Text.trimEnd (c :: text) = []
    · have hrest : Text.trimEnd text = [] := Text.dropEndWhile_eq_nil_iff.mpr
        (List.forall_mem_cons.mp (Text.dropEndWhile_eq_nil_iff.mp hnil)).2
      rwa [hnil, ← hrest]
    · have hkept : Text.trimEnd (c :: text) = c :: Text.trimEnd text :=
        Text.dropEndWhile_cons_of_ne_nil hnil
      rw [hkept]
      exact .blank hblank ih
  | @marker c text markers hmarker _ ih =>
    have hkept : Text.trimEnd ([c] ++ text) = [c] ++ Text.trimEnd text :=
      Text.dropEndWhile_append_of_forall (by simpa using TypeQuery.isBlank_of_isMarker hmarker)
    exact hkept ▸ .marker hmarker ih
  | @keyword text markers alone _ ih =>
    have hkept : Text.trimEnd ("const".toList ++ text) = "const".toList ++ Text.trimEnd text :=
      Text.dropEndWhile_append_of_forall fun c hc =>
        Name.isBlank_of_isIdentChar (Text.isKeyword_const.letters c hc)
    rw [hkept]
    refine .keyword ?_ ih
    cases text with
    | nil => rfl
    | cons c text =>
      by_cases hnil : Text.trimEnd (c :: text) = []
      · rw [hnil]
        rfl
      · rwa [Text.trimEnd, Text.dropEndWhile_cons_of_ne_nil hnil]

/-- What is left when the consts are removed are the blanks and the markers. -/
theorem removeConst (h : Trails text markers) :
    (∀ c ∈ Text.removeConst text, Text.isBlank c = true ∨ TypeQuery.isMarker c = true) ∧
      Text.dropBlanks (Text.removeConst text) = markers := by
  induction h with
  | nil => exact ⟨nofun, rfl⟩
  | @blank c text markers hblank _ ih =>
    rw [Text.removeConst_cons (Text.isIdentChar_of_isBlank hblank), List.forall_mem_cons]
    refine ⟨⟨.inl hblank, ih.1⟩, ?_⟩
    rw [← ih.2, Text.dropBlanks, List.filter_cons_of_neg (by simpa using hblank)]
    rfl
  | @marker c text markers hmarker _ ih =>
    have hblank := TypeQuery.isBlank_of_isMarker hmarker
    rw [Text.removeConst_cons (TypeQuery.isIdentChar_of_isMarker hmarker), List.forall_mem_cons]
    refine ⟨⟨.inr hmarker, ih.1⟩, ?_⟩
    rw [← ih.2, Text.dropBlanks, List.filter_cons_of_pos (by simpa using hblank)]
    rfl
  | keyword alone _ ih => rwa [Text.removeConst_keyword_append alone]

end Trails

namespace Name

variable {name : String} {c : Char} {text markers : List Char}

/-- What a query keeps of the text behind a word, before its blanks are dropped. -/
def keptBehind (text : List Char) : List Char :=
  Text.removeConst (Text.trimEnd text)

theorem trimEnd_cons_eq_nil_iff (hc : Text.isBlank c = true) :
    Text.trimEnd (c :: text) = [] ↔ ¬ ∃ d ∈ text, Text.isBlank d = false := by
  rw [Text.trimEnd, Text.dropEndWhile_eq_nil_iff, List.forall_mem_cons]
  simp [hc]

theorem keptBehind_cons_of_isBlank (hc : Text.isBlank c = true)
    (hmore : ∃ d ∈ text, Text.isBlank d = false) :
    keptBehind (c :: text) = c :: keptBehind text := by
  have hnonempty : Text.trimEnd (c :: text) ≠ [] := fun he =>
    (trimEnd_cons_eq_nil_iff hc).mp he hmore
  rw [keptBehind, Text.trimEnd, Text.dropEndWhile_cons_of_ne_nil hnonempty,
    Text.removeConst_cons (Text.isIdentChar_of_isBlank hc)]
  rfl

theorem head?_keptBehind_eq_space_iff (hc : Text.isBlank c = true) :
    (keptBehind (c :: text)).head? = some ' ' ↔ c = ' ' ∧ ∃ d ∈ text, Text.isBlank d = false := by
  by_cases hmore : ∃ d ∈ text, Text.isBlank d = false
  · rw [keptBehind_cons_of_isBlank hc hmore]
    simp [hmore]
  · rw [keptBehind, (trimEnd_cons_eq_nil_iff hc).mpr hmore, Text.removeConst_nil]
    simp [hmore]

theorem removeConst_trim_append (h : IsWord name) (hc : Text.isBlank c = true) :
    Text.removeConst (Text.trim (name.toList ++ c :: text)) =
      name.toList ++ keptBehind (c :: text) := by
  have hblank : ∀ d ∈ name.toList, Text.isBlank d = false := h.isPlainQuery.not_blank
  have hword : Text.removeConst name.toList = name.toList := h.isPlainQuery.no_const
  have htrim : Text.trim (name.toList ++ c :: text) = name.toList ++ Text.trimEnd (c :: text) := by
    have hstart : Text.trimStart (name.toList ++ c :: text) = name.toList ++ c :: text := by
      obtain ⟨d, ds, hd⟩ := List.exists_cons_of_ne_nil
        fun he => h.ne_empty (String.toList_eq_nil_iff.mp he)
      rw [hd] at hblank ⊢
      simp [Text.trimStart, hblank]
    rw [Text.trim, hstart]
    exact Text.dropEndWhile_append_of_forall hblank
  rw [htrim, keptBehind]
  by_cases hnil : Text.trimEnd (c :: text) = []
  · rw [hnil, List.append_nil, hword, Text.removeConst_nil, List.append_nil]
  · have hident := Text.isIdentChar_of_isBlank hc
    rw [Text.trimEnd, Text.dropEndWhile_cons_of_ne_nil hnil, Text.removeConst_append_cons hident,
      hword, Text.removeConst_cons hident]

end Name

namespace Trails

variable {name front : String} {c : Char} {text markers : List Char}

theorem isMarker (h : Trails text markers) : ∀ c ∈ markers, TypeQuery.isMarker c = true := by
  induction h with
  | nil => exact fun _ => nofun
  | blank _ _ ih | keyword _ _ ih => exact ih
  | marker hmarker _ ih => exact List.forall_mem_cons.mpr ⟨hmarker, ih⟩

theorem dropBlanks_keptBehind (h : Trails text markers) :
    Text.dropBlanks (Name.keptBehind text) = markers :=
  h.trimEnd.removeConst.2

theorem isIdentChar_of_mem_keptBehind (h : Trails text markers) :
    ∀ d ∈ Name.keptBehind text, Text.isIdentChar d = false := fun d hd =>
  (h.trimEnd.removeConst.1 d hd).elim Text.isIdentChar_of_isBlank
    TypeQuery.isIdentChar_of_isMarker

/-- There are no dots in a word and what follows it, so only `unsigned ` and the blanks are left to
look after. -/
theorem normalizeQueryChars_append (h : Trails text markers) (hword : Name.IsWord name)
    (hc : Text.isBlank c = true) :
    Name.normalizeQueryChars (name.toList ++ c :: text) =
      Text.dropBlanks (Text.replaceAll ("unsigned".toList ++ [' ']) ['u']
        (name.toList ++ Name.keptBehind (c :: text))) := by
  have hpattern : "unsigned ".toList = "unsigned".toList ++ [' '] := by decide
  rw [Name.normalizeQueryChars, Name.removeConst_trim_append hword hc, hpattern,
    Name.dotsToSeparators_eq_self]
  intro hdot
  obtain hdot | hdot := Text.mem_replaceFrom hdot
  · exact absurd hdot (by decide)
  · obtain hdot | hdot := List.mem_append.mp hdot
    · exact hword.isPlainQuery.no_dot hdot
    · exact absurd ((Trails.blank hc h).trimEnd.removeConst.1 '.' hdot) (by decide)

end Trails

namespace Name

/-- The name ends with `unsigned`, and a space and something else follow it, as in
`unsigned int`. -/
def MeetsUnsigned (name : String) (c : Char) (text : List Char) : Prop :=
  "unsigned".toList <:+ name.toList ∧ c = ' ' ∧ ∃ d ∈ text, Text.isBlank d = false

theorem IsWord.isPlainQuery_markers {name : String} {markers : List Char} (h : IsWord name)
    (hm : ∀ c ∈ markers, TypeQuery.isMarker c = true) :
    IsPlainQuery (name ++ String.ofList markers) := by
  have hq := h.isPlainQuery
  have htext : (name ++ String.ofList markers).toList = name.toList ++ markers := by
    rw [String.toList_append, String.toList_ofList]
  refine ⟨⟨fun he => ?_, fun c hc => ?_, fun hdot => ?_⟩, ?_⟩
  · have hnil := congrArg String.toList he
    rw [htext] at hnil
    exact h.ne_empty (String.toList_eq_nil_iff.mp (List.append_eq_nil_iff.mp hnil).1)
  · rw [htext] at hc
    exact (List.mem_append.mp hc).elim (hq.not_blank c) fun hc =>
      TypeQuery.isBlank_of_isMarker (hm c hc)
  · rw [htext] at hdot
    exact (List.mem_append.mp hdot).elim hq.no_dot fun hdot =>
      absurd (hm '.' hdot) (by decide)
  · rw [htext, Text.removeConst_append_of_forall fun c hc =>
      TypeQuery.isIdentChar_of_isMarker (hm c hc), hq.no_const]

end Name

namespace Trails

variable {name front : String} {c : Char} {text markers : List Char}

theorem normalizeQuery_eq (h : Trails text markers) (hword : Name.IsWord name)
    (hc : Text.isBlank c = true) (hu : ¬ Name.MeetsUnsigned name c text) :
    Name.normalizeQuery (name ++ String.ofList (c :: text)) = name ++ String.ofList markers := by
  have hbehind := Trails.blank hc h
  have hnone : ¬ "unsigned".toList ++ [' '] <:+: name.toList ++ Name.keptBehind (c :: text) :=
    Text.not_infix_of_not_suffix (by decide) Text.isIdentChar_of_mem_unsigned (by decide)
      hword.chars hbehind.isIdentChar_of_mem_keptBehind fun hends =>
        hu ⟨hends.1, (Name.head?_keptBehind_eq_space_iff hc).mp hends.2⟩
  rw [Name.normalizeQuery, String.toList_append, String.toList_ofList,
    h.normalizeQueryChars_append hword hc, Text.replaceAll_eq_self hnone, Text.dropBlanks_append,
    Text.dropBlanks_eq_self hword.isPlainQuery.not_blank, hbehind.dropBlanks_keptBehind,
    String.ofList_append, String.ofList_toList]

theorem normalizeQuery_of_meetsUnsigned (h : Trails text markers)
    (hword : Name.IsWord (front ++ "unsigned"))
    (hmore : ∃ d ∈ text, Text.isBlank d = false) :
    Name.normalizeQuery (front ++ "unsigned" ++ String.ofList (' ' :: text)) =
      front ++ "u" ++ String.ofList markers := by
  have hspace : Text.isBlank ' ' = true := by decide
  have hkept : Name.keptBehind (' ' :: text) = ' ' :: Name.keptBehind text :=
    Name.keptBehind_cons_of_isBlank hspace hmore
  have hletters : ∀ d ∈ front.toList, Text.isIdentChar d = true := fun d hd =>
    hword.chars d (by rw [String.toList_append]; exact List.mem_append_left _ hd)
  have hreplaced : Text.replaceAll ("unsigned".toList ++ [' ']) ['u']
      (front.toList ++ "unsigned".toList ++ ' ' :: Name.keptBehind text) =
        front.toList ++ ['u'] ++ Name.keptBehind text :=
    Text.replaceAll_suffix (by decide) Text.isIdentChar_of_mem_unsigned (by decide) hletters
      h.isIdentChar_of_mem_keptBehind
  have hfront : Text.dropBlanks front.toList = front.toList :=
    Text.dropBlanks_eq_self fun d hd => Name.isBlank_of_isIdentChar (hletters d hd)
  have hu : Text.dropBlanks ['u'] = ['u'] := by decide
  rw [Name.normalizeQuery, String.toList_append, String.toList_ofList,
    h.normalizeQueryChars_append hword hspace, hkept, String.toList_append, hreplaced,
    Text.dropBlanks_append, Text.dropBlanks_append, hfront, h.dropBlanks_keptBehind, hu,
    String.ofList_append, String.ofList_append, String.ofList_toList]

end Trails

namespace Model

theorem lookupType_congr {query query' : String} (hne : Name.normalizeQuery query ≠ "")
    (h : Name.normalizeQuery query' = Name.normalizeQuery query) (scope : TypeId)
    (search : Search) : lookupType scope query' search = lookupType scope query search := by
  have hne' : Name.normalizeQuery query' ≠ "" := by rwa [h]
  have hsplit : TypeQuery.split (Name.normalizeQuery query') =
      TypeQuery.split (Name.normalizeQuery query) := by rw [h]
  rw [lookupType_eq_with, lookupTypeWith, lookupTypeWith, h]
  cases hparts : TypeQuery.split (Name.normalizeQuery query) with
  | error failure =>
    rw [lookupTypeBelow_of_error _ hne hparts,
      lookupTypeBelow_of_error _ hne' (hsplit.trans hparts)]
  | ok parts =>
    rw [lookupTypeBelow_succ _ hne hparts, lookupTypeBelow_succ _ hne' (hsplit.trans hparts), h]

/-- A query for a word with blanks, markers and consts behind it is the word with the markers,
unless it meets the keyword `unsigned`. Then all spellings with the same markers look up the
same. -/
theorem query_spellings {name : String} (hword : Name.IsWord name) {c : Char}
    (hc : Text.isBlank c = true) {text markers : List Char} (h : Trails text markers) :
    (Name.normalizeQuery (name ++ String.ofList (c :: text)) = name ++ String.ofList markers ↔
      ¬ Name.MeetsUnsigned name c text) ∧
    (¬ Name.MeetsUnsigned name c text → ∀ scope search,
      lookupType scope (name ++ String.ofList (c :: text)) search =
        lookupType scope (name ++ String.ofList markers) search) := by
  have hplain := hword.isPlainQuery_markers h.isMarker
  refine ⟨⟨?_, h.normalizeQuery_eq hword hc⟩, fun hu => ?_⟩
  · rintro hread ⟨⟨front, hfront⟩, rfl, hmore⟩
    obtain rfl : String.ofList front ++ "unsigned" = name := by
      rw [← String.toList_inj, String.toList_append, String.toList_ofList, hfront]
    rw [h.normalizeQuery_of_meetsUnsigned hword hmore] at hread
    have hlength := congrArg String.length hread
    simp only [String.length_append, Nat.add_right_cancel_iff, Nat.add_left_cancel_iff] at hlength
    exact absurd hlength (by decide)
  · refine lookupType_congr ?_ ?_
    · rw [hplain.normalizeQuery_eq]
      exact hplain.ne_empty
    · rw [h.normalizeQuery_eq hword hc hu, hplain.normalizeQuery_eq]

/-- `A const *` is a spelling of `A*`. -/
theorem query_spellings_of_const :
    Name.normalizeQuery "A const *" = "A*" ∧
    ∀ scope search, lookupType scope "A const *" search = lookupType scope "A*" search := by
  have htrails : Trails "const *".toList ['*'] :=
    .keyword (by decide) (.blank (by decide) (.marker (by decide) .nil))
  have hother : ¬ Name.MeetsUnsigned "A" ' ' "const *".toList := fun h =>
    absurd h.1 (by decide)
  obtain ⟨hnormal, hlookup⟩ := query_spellings (by decide : Name.IsWord "A")
    (by decide : Text.isBlank ' ' = true) htrails
  exact ⟨hnormal.mpr hother, hlookup hother⟩

/-- The class `my_unsigned` is not found when a blank stands in front of the marker. -/
theorem query_spelling_misread : ∃ m, Reachable .free m ∧ Name.IsWord "my_unsigned" ∧
    Trails ['*'] ['*'] ∧
    Name.normalizeQuery "my_unsigned *" = "my_u*" ∧
    m.outcome .root "my_unsigned*" = some (.pointer (.raw ⟨1⟩), none) ∧
    m.outcome .root "my_unsigned *" = none := by
  let action : Action := .addType .root (declaration .classType "" "my_unsigned") true
  have h : Reachable .free (bare.afterAll [action]) := reachable_bare.afterAll fun other ho m => by
    obtain rfl := List.mem_singleton.mp ho
    exact isFresh_declaration nofun nofun
  exact ⟨_, h, by decide, .marker (by decide) .nil, by decide +kernel, by decide +kernel,
    by decide +kernel⟩

end Model

end ApiModel
