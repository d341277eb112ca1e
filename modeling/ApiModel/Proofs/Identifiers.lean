import ApiModel.Proofs.Brackets
import ApiModel.Proofs.TypeNames

/-!
Identifiers, and paths that are made of them. Such paths stand for themselves in queries: there is
nothing to drop from them, and each separator cuts them into the path in front and the rest.
-/

namespace ApiModel

namespace Text

variable {cs : List Char}

theorem replaceAll_eq_self {pattern replacement : List Char} (h : ¬ pattern <:+: cs) :
    replaceAll pattern replacement cs = cs := by
  induction cs with
  | nil => simp
  | cons c cs ih =>
    have hc : pattern.isPrefixOf (c :: cs) = false := by
      rw [Bool.eq_false_iff, ne_eq, List.isPrefixOf_iff_prefix]
      exact fun hp => h hp.isInfix
    have hcs : ¬ pattern <:+: cs := fun hi => h (hi.trans (List.suffix_cons c cs).isInfix)
    rw [replaceAll] at ih ⊢
    rw [replaceFrom, hc, if_neg (by simp), ih hcs]

end Text

namespace Path

variable {depth : Int} {cs rest init last : List Char}

theorem not_separator_append {c : Char} (hc : ∀ cs', c = ':' → cs = ':' :: cs' → False)
    (hlast : (c :: cs).getLast? ≠ some ':') : ∀ cs', c = ':' → cs ++ rest = ':' :: cs' → False := by
  rintro cs' rfl hcs
  match cs, hcs with
  | [], _ => exact hlast rfl
  | _ :: cs, hcs =>
    obtain ⟨rfl, -⟩ := List.cons.inj hcs
    exact hc cs rfl rfl

theorem depth_cons (depth : Int) (c : Char) (cs : List Char) :
    (depth + bracketStep c) + cs.count '<' - cs.count '>' =
      depth + (c :: cs).count '<' - (c :: cs).count '>' := by
  rw [List.count_cons, List.count_cons, bracketStep]
  grind

/-- Nothing is cut in a text without separators, and it only changes the depth. -/
theorem cutFirst_append (h : cutFirst depth cs = none) (hlast : cs.getLast? ≠ some ':') :
    cutFirst depth (cs ++ rest) =
      (cutFirst (depth + cs.count '<' - cs.count '>') rest).map fun (head, tail) =>
        (cs ++ head, tail) := by
  fun_induction cutFirst depth cs with
  | case1 => cases h
  | case2 depth cs hd ih =>
    rw [List.cons_append, List.cons_append, cutFirst, if_neg hd,
      ih (Option.map_eq_none_iff.mp h) ?_]
    · simp [Function.comp_def]
    · cases cs <;> simp_all
  | case3 depth c cs hc ih =>
    have hlast' : cs.getLast? ≠ some ':' := by cases cs <;> simp_all
    rw [List.cons_append, cutFirst, ih (Option.map_eq_none_iff.mp h) hlast', depth_cons]
    · simp [Function.comp_def]
    · exact not_separator_append hc hlast
  | case4 => simp

/-- A text is cut at a separator that only a text without separators follows. -/
theorem cutLast_append (hlast : init.getLast? ≠ some ':')
    (hdepth : depth + init.count '<' - init.count '>' = 0) (h : cutLast 0 last = none) :
    cutLast depth (init ++ ':' :: ':' :: last) = some (init, last) := by
  fun_induction cutLast depth init with
  | case1 depth cs _ _ _ ih | case2 cs _ ih | case3 depth cs _ _ ih =>
    have hlast : cs.getLast? ≠ some ':' := by cases cs <;> simp_all
    rw [List.cons_append, List.cons_append, cutLast, ih hlast (by simpa using hdepth)]
  | case4 depth c cs hc ih =>
    have hlast' : cs.getLast? ≠ some ':' := by cases cs <;> simp_all
    rw [List.cons_append, cutLast, ih hlast' (by rw [depth_cons, hdepth])]
    · rfl
    · exact not_separator_append hc hlast
  | case5 depth =>
    obtain rfl : depth = 0 := by simpa using hdepth
    rw [List.nil_append, cutLast, h]
    rfl

/-- A text that separators and markers can follow: as many brackets are closed as are opened, and
it does not end with a colon or a marker. -/
structure IsPath (text : String) : Prop where
  ne_empty : text ≠ ""
  balanced : text.toList.count '<' = text.toList.count '>'
  last : ∀ c ∈ text.toList.getLast?, c ≠ ':' ∧ TypeQuery.isMarker c = false

theorem IsPath.getLast?_ne {text : String} (h : IsPath text) : text.toList.getLast? ≠ some ':' :=
  fun hlast => (h.last ':' hlast).1 rfl

/-- One part of a path. -/
structure IsPart (part : String) : Prop extends IsPath part where
  undivided : splitFirst? part = none

theorem splitFirst?_of_cutFirst {name head tail : String}
    (h : cutFirst 0 name.toList = some (head.toList, tail.toList)) :
    splitFirst? name = some (head, tail) := by
  rw [splitFirst?, h, Option.map_some]
  exact congrArg some (Prod.ext String.ofList_toList String.ofList_toList)

theorem IsPart.splitFirst? {part : String} (h : IsPart part) (rest : String) :
    splitFirst? (part ++ "::" ++ rest) = some (part, rest) := by
  have hcut : cutFirst 0 part.toList = none := Option.map_eq_none_iff.mp h.undivided
  have hdepth : (0 : Int) + part.toList.count '<' - part.toList.count '>' = 0 := by
    rw [h.balanced]
    omega
  refine splitFirst?_of_cutFirst ?_
  rw [String.toList_append, String.toList_append, List.append_assoc,
    cutFirst_append hcut h.getLast?_ne, hdepth, show "::".toList = [':', ':'] from rfl]
  simp [cutFirst]

theorem splitFirst?_separator (rest : String) : splitFirst? ("::" ++ rest) = some ("", rest) := by
  refine splitFirst?_of_cutFirst ?_
  rw [String.toList_append, show "::".toList = [':', ':'] from rfl]
  simp [cutFirst]

theorem parts_of_join {init last : String} (hinit : init = "" ∨ IsPath init)
    (h : cutLast 0 last.toList = none) :
    parent (init ++ "::" ++ last) = init ∧ baseName (init ++ "::" ++ last) = last := by
  have hdepth : (0 : Int) + init.toList.count '<' - init.toList.count '>' = 0 := by
    obtain rfl | hinit := hinit
    · rfl
    · rw [hinit.balanced]
      omega
  have hcolon : init.toList.getLast? ≠ some ':' := by
    obtain rfl | hinit := hinit
    · simp
    · exact hinit.getLast?_ne
  have hcut : cutLast 0 (init ++ "::" ++ last).toList = some (init.toList, last.toList) := by
    rw [String.toList_append, String.toList_append, List.append_assoc]
    exact cutLast_append hcolon hdepth h
  rw [parent, baseName, hcut]
  exact ⟨String.ofList_toList, String.ofList_toList⟩

theorem IsPath.join {head tail : String} (h : IsPath head) (h' : IsPath tail) :
    IsPath (head ++ "::" ++ tail) where
  ne_empty := by simp
  balanced := by
    simp only [String.toList_append, List.count_append, h.balanced, h'.balanced]
    rfl
  last := by
    have hne : tail.toList ≠ [] := fun he => h'.ne_empty (String.toList_eq_nil_iff.mp he)
    rw [String.toList_append, List.getLast?_append_of_ne_nil _ hne]
    exact h'.last

theorem IsPath.absolute {path : String} (h : IsPath path) : IsPath ("::" ++ path) where
  ne_empty := by simp
  balanced := by
    simp only [String.toList_append, List.count_append, h.balanced]
    rfl
  last := by
    have hne : path.toList ≠ [] := fun he => h.ne_empty (String.toList_eq_nil_iff.mp he)
    rw [String.toList_append, List.getLast?_append_of_ne_nil _ hne]
    exact h.last

theorem intercalate_of_join {P : String → Prop} {parts : List String}
    (join : ∀ {head tail}, P head → P tail → P (head ++ "::" ++ tail)) (hne : parts ≠ [])
    (h : ∀ part ∈ parts, P part) : P ("::".intercalate parts) := by
  induction parts with
  | nil => exact absurd rfl hne
  | cons part parts ih =>
    obtain ⟨hpart, hparts⟩ := List.forall_mem_cons.mp h
    cases parts with
    | nil => simpa using hpart
    | cons next parts =>
      rw [String.intercalate_cons_cons]
      exact join hpart (ih (by simp) hparts)

theorem IsPath.intercalate {parts : List String} (hne : parts ≠ [])
    (h : ∀ part ∈ parts, IsPath part) : IsPath ("::".intercalate parts) :=
  intercalate_of_join .join hne h

theorem foldl_qualify {part : String} (hpart : part ≠ "") (parts : List String) :
    parts.foldl qualify part = "::".intercalate (part :: parts) := by
  induction parts generalizing part with
  | nil => simp
  | cons next parts ih =>
    have hne : part ++ "::" ++ next ≠ "" := by simp
    rw [List.foldl_cons, qualify, if_neg hpart, ih hne]
    cases parts <;> simp [String.intercalate_cons_cons, String.append_assoc]

theorem intercalate_consPart (c : Char) {parts : List (List Char)} (h : parts ≠ []) :
    [':', ':'].intercalate (consPart c parts) = c :: [':', ':'].intercalate parts := by
  obtain ⟨part, rest, rfl, hc⟩ := consPart_eq_cons (c := c) h
  rw [hc]
  cases rest <;> simp

theorem intercalate_cutAll (depth : Int) (cs : List Char) :
    [':', ':'].intercalate (cutAll depth cs) = cs := by
  fun_induction cutAll depth cs with
  | case1 cs ih =>
    obtain ⟨part, rest, hparts⟩ := List.exists_cons_of_ne_nil (cutAll_ne_nil 0 cs)
    rw [hparts] at ih ⊢
    rw [List.intercalate_cons_cons, ih]
    rfl
  | case2 depth cs _ ih =>
    obtain ⟨part, rest, -, hc⟩ := consPart_eq_cons (c := ':') (cutAll_ne_nil depth cs)
    have hne : consPart ':' (cutAll depth cs) ≠ [] := by simp [hc]
    rw [intercalate_consPart _ hne, intercalate_consPart _ (cutAll_ne_nil depth cs), ih]
  | case3 depth c cs _ ih => rw [intercalate_consPart _ (cutAll_ne_nil _ cs), ih]
  | case4 => rfl

theorem intercalate_components (path : String) : "::".intercalate (components path) = path := by
  rw [← String.toList_inj, String.toList_intercalate, components, List.map_map]
  simpa [Function.comp_def] using intercalate_cutAll 0 path.toList

theorem foldl_qualify_components {path : String} (h : "" ∉ components path) (scope : String) :
    (components path).foldl qualify scope = qualify scope path := by
  obtain ⟨first, rest, hparts⟩ : ∃ first rest, components path = first :: rest :=
    List.exists_cons_of_ne_nil (by simp [components])
  have hpath : "::".intercalate (first :: rest) = path := hparts ▸ intercalate_components path
  rw [hparts] at h ⊢
  by_cases hs : scope = ""
  · rw [hs, List.foldl_cons, qualify_empty, qualify_empty,
      foldl_qualify fun he => h (he ▸ List.mem_cons_self), hpath]
  · rw [foldl_qualify hs, String.intercalate_cons_cons, hpath, qualify, if_neg hs]

end Path

namespace Name

structure IsIdentifier (name : String) : Prop where
  ne_empty : name ≠ ""
  chars : ∀ c ∈ name.toList, Text.isIdentChar c = true

theorem isBlank_of_isIdentChar {c : Char} (h : Text.isIdentChar c = true) :
    Text.isBlank c = false := by
  rw [Text.isIdentChar, Bool.or_eq_true, decide_eq_true_eq] at h
  obtain h | rfl := h
  · exact Text.isBlank_of_isAlphanumeric h
  · decide

namespace IsIdentifier

variable {name : String}

theorem not_mem (h : IsIdentifier name) {c : Char} (hc : Text.isIdentChar c = false) :
    c ∉ name.toList := by
  intro hmem
  rw [h.chars c hmem] at hc
  cases hc

theorem isNormal (h : IsIdentifier name) : IsNormal name where
  ne_empty := h.ne_empty
  not_blank c hc := isBlank_of_isIdentChar (h.chars c hc)
  no_dot := h.not_mem (by decide)

theorem isSingle (h : IsIdentifier name) : IsSingle name where
  toIsNormal := h.isNormal
  undivided := by
    by_contra hcut
    obtain ⟨⟨init, last⟩, hcut⟩ := Option.ne_none_iff_exists'.mp hcut
    have hcolon : ':' ∉ name.toList := h.not_mem (by decide)
    rw [Path.cutLast_eq_some hcut] at hcolon
    simp at hcolon

theorem isPart (h : IsIdentifier name) : Path.IsPart name where
  ne_empty := h.ne_empty
  balanced := by
    rw [List.count_eq_zero_of_not_mem (h.not_mem (by decide)),
      List.count_eq_zero_of_not_mem (h.not_mem (by decide))]
  last c hlast := by
    have hc := h.chars c (List.mem_of_getLast? hlast)
    refine ⟨?_, ?_⟩
    · rintro rfl
      exact absurd hc (by decide)
    · rw [TypeQuery.isMarker, Bool.or_eq_false_iff, decide_eq_false_iff_not,
        decide_eq_false_iff_not]
      constructor <;> rintro rfl <;> exact absurd hc (by decide)
  undivided := by
    by_contra hcut
    obtain ⟨⟨head, tail⟩, hcut⟩ := Option.ne_none_iff_exists'.mp hcut
    have hcolon : ':' ∉ name.toList := h.not_mem (by decide)
    rw [Path.splitFirst?_eq_some hcut] at hcolon
    simp at hcolon

end IsIdentifier

namespace IsNormal

variable {head tail : String}

theorem absolute (h : IsNormal tail) : IsNormal ("::" ++ tail) where
  ne_empty := by simp
  not_blank c hc := by
    rw [String.toList_append] at hc
    obtain hc | hc := List.mem_append.mp hc
    · obtain rfl : c = ':' := by
        rw [show "::".toList = [':', ':'] from rfl] at hc
        simpa using hc
      decide
    · exact h.not_blank c hc
  no_dot hc := by
    rw [String.toList_append] at hc
    obtain hc | hc := List.mem_append.mp hc
    · exact absurd hc (by decide)
    · exact h.no_dot hc

theorem join (h : IsNormal head) (h' : IsNormal tail) : IsNormal (head ++ "::" ++ tail) where
  ne_empty := by simp
  not_blank c hc := by
    rw [String.append_assoc, String.toList_append] at hc
    obtain hc | hc := List.mem_append.mp hc
    · exact h.not_blank c hc
    · exact h'.absolute.not_blank c hc
  no_dot hc := by
    rw [String.append_assoc, String.toList_append] at hc
    obtain hc | hc := List.mem_append.mp hc
    · exact h.no_dot hc
    · exact h'.absolute.no_dot hc

end IsNormal

theorem isNormal_of_components {path : String}
    (h : ∀ part ∈ Path.components path, IsIdentifier part) : IsNormal path := by
  rw [← Path.intercalate_components path]
  exact Path.intercalate_of_join .join (by simp [Path.components]) fun part hpart =>
    (h part hpart).isNormal

/-- A query that normalizing leaves as it is. -/
structure IsPlainQuery (query : String) : Prop extends IsNormal query where
  no_const : Text.removeConst query.toList = query.toList

namespace IsPlainQuery

variable {query head tail : String} {parts : List String}

theorem normalizeQuery_eq (h : IsPlainQuery query) : normalizeQuery query = query := by
  have hspelled : ¬ "unsigned ".toList <:+: query.toList := fun hi => by
    have hblank := h.not_blank ' ' (hi.subset (by decide))
    exact absurd hblank (by decide)
  rw [normalizeQuery, normalizeQueryChars, Text.trim_eq_self h.not_blank, h.no_const,
    Text.replaceAll_eq_self hspelled, dotsToSeparators_eq_self h.no_dot,
    Text.dropBlanks_eq_self h.not_blank, String.ofList_toList]

theorem absolute (h : IsPlainQuery query) : IsPlainQuery ("::" ++ query) where
  toIsNormal := h.toIsNormal.absolute
  no_const := by
    have hsep : ("::" ++ query).toList = ':' :: ':' :: query.toList := String.toList_append
    rw [hsep, Text.removeConst_cons (by decide), Text.removeConst_cons (by decide), h.no_const]

theorem join (h : IsPlainQuery head) (h' : IsPlainQuery tail) :
    IsPlainQuery (head ++ "::" ++ tail) where
  toIsNormal := h.toIsNormal.join h'.toIsNormal
  no_const := by
    have hsep : (head ++ "::" ++ tail).toList = head.toList ++ ':' :: ':' :: tail.toList := by
      rw [String.append_assoc, String.toList_append, String.toList_append]
      rfl
    rw [hsep, Text.removeConst_append_cons (by decide), Text.removeConst_cons (by decide),
      h.no_const, h'.no_const]

theorem intercalate (hne : parts ≠ []) (h : ∀ part ∈ parts, IsPlainQuery part) :
    IsPlainQuery ("::".intercalate parts) := Path.intercalate_of_join .join hne h

end IsPlainQuery

/-- An identifier other than the keyword `const`, which queries lose. -/
structure IsWord (name : String) : Prop extends IsIdentifier name where
  ne_const : name ≠ "const"

instance (name : String) : Decidable (IsWord name) :=
  decidable_of_iff (name ≠ "" ∧ name.toList.all Text.isIdentChar = true ∧ name ≠ "const")
    ⟨fun h => ⟨⟨h.1, List.all_eq_true.mp h.2.1⟩, h.2.2⟩,
      fun h => ⟨h.ne_empty, List.all_eq_true.mpr h.chars, h.ne_const⟩⟩

theorem IsWord.isPlainQuery {name : String} (h : IsWord name) : IsPlainQuery name where
  toIsNormal := h.isNormal
  no_const := Text.removeConst_word h.chars fun he => h.ne_const (String.toList_inj.mp he)

end Name

namespace TypeQuery

variable {c : Char}

theorem isMarker_iff : isMarker c = true ↔ c = '*' ∨ c = '&' := by simp [isMarker]

theorem isBlank_of_isMarker (h : isMarker c = true) : Text.isBlank c = false := by
  obtain rfl | rfl := isMarker_iff.mp h <;> decide

theorem isIdentChar_of_isMarker (h : isMarker c = true) : Text.isIdentChar c = false := by
  obtain rfl | rfl := isMarker_iff.mp h <;> decide

end TypeQuery

namespace Text

variable {p : Char → Bool} {cs ds : List Char}

theorem dropEndWhile_eq_nil_iff : dropEndWhile p cs = [] ↔ ∀ c ∈ cs, p c = true := by
  induction cs with
  | nil => simp
  | cons c cs ih =>
    rw [List.forall_mem_cons, ← ih, dropEndWhile]
    cases dropEndWhile p cs <;> simp

theorem dropEndWhile_append (p : Char → Bool) (cs ds : List Char) :
    dropEndWhile p (cs ++ ds) =
      if dropEndWhile p ds = [] then dropEndWhile p cs else cs ++ dropEndWhile p ds := by
  by_cases hds : dropEndWhile p ds = []
  · rw [if_pos hds]
    induction cs with
    | nil => exact hds
    | cons c cs ih => rw [List.cons_append, dropEndWhile, ih, dropEndWhile]
  · rw [if_neg hds]
    induction cs with
    | nil => rfl
    | cons c cs ih =>
      rw [List.cons_append, dropEndWhile, ih]
      split
      · next he => exact absurd (List.append_eq_nil_iff.mp he).2 hds
      · rfl

theorem dropEndWhile_append_of_pos (hd : ∀ c ∈ ds, p c = true) :
    dropEndWhile p (cs ++ ds) = dropEndWhile p cs := by
  rw [dropEndWhile_append, if_pos (dropEndWhile_eq_nil_iff.mpr hd)]

theorem dropEndWhile_eq_self_of_last (h : ∀ c, cs.getLast? = some c → p c = false) :
    dropEndWhile p cs = cs := by
  obtain rfl | ⟨ds, d, rfl⟩ := List.eq_nil_or_concat cs
  · rfl
  · rw [List.concat_eq_append] at h ⊢
    exact dropEndWhile_append_of_neg (h d (by simp)) ds

end Text

theorem Path.IsPath.split_eq {name : String} (h : IsPath name) {markers : List Char}
    (hmarkers : ∀ c ∈ markers, TypeQuery.isMarker c = true) :
    TypeQuery.split (name ++ String.ofList markers) =
      if markers.contains '*' && markers.contains '&' then
        .error (.invalidQualifierCombination (name ++ String.ofList markers)
          "a type cannot be a pointer and a reference at the same time")
      else .ok (name, markers) := by
  have hbase : Text.dropEndWhile TypeQuery.isMarker (name ++ String.ofList markers).toList =
      name.toList := by
    rw [String.toList_append, String.toList_ofList, Text.dropEndWhile_append_of_pos hmarkers,
      Text.dropEndWhile_eq_self_of_last fun c hc => (h.last c hc).2]
  have hbehind : (name ++ String.ofList markers).toList.drop name.toList.length = markers := by
    rw [String.toList_append, String.toList_ofList, List.drop_left]
  rw [TypeQuery.split, hbase, hbehind, String.ofList_toList]

theorem Path.IsPath.split {name : String} (h : IsPath name) {markers : List Char}
    (hmarkers : ∀ c ∈ markers, TypeQuery.isMarker c = true)
    (hkind : '*' ∉ markers ∨ '&' ∉ markers) :
    TypeQuery.split (name ++ String.ofList markers) = .ok (name, markers) := by
  have hboth : (markers.contains '*' && markers.contains '&') = false := by
    rw [Bool.and_eq_false_iff]
    simpa using hkind
  rw [h.split_eq hmarkers, hboth, if_neg (by simp)]

end ApiModel
