import Mathlib.Data.List.Find
import ApiModel.Name.Export
import ApiModel.Name.Path

/-!
Export names of texts that are put together: of a path and a name behind it, and of a stem and a
number behind it. The front and the rest are mangled apart unless an operator or a separator reaches
from one into the other.
-/

namespace ApiModel

namespace Text

@[simp] theorem dropBlanks_append (cs ds : List Char) :
    dropBlanks (cs ++ ds) = dropBlanks cs ++ dropBlanks ds := by
  simp [dropBlanks]

end Text

namespace ExportName

variable {front rest digits : List Char}

/-- The identifier of a path behind which the text goes on, so that a closing bracket at its end is
not dropped. -/
def mangleFront : List Char → List Char
  | [] => []
  | ':' :: ':' :: cs => '_' :: mangleFront cs
  | '>' :: cs => '_' :: mangleFront cs
  | '*' :: cs => '_' :: 'p' :: 't' :: 'r' :: mangleFront cs
  | '&' :: cs => '_' :: 'r' :: 'e' :: 'f' :: mangleFront cs
  | c :: cs =>
    (if Text.isIdentChar c then c else '_') :: mangleFront cs

theorem getLast?_ne_of_cons {c d : Char} {cs : List Char} (h : (c :: cs).getLast? ≠ some d) :
    cs.getLast? ≠ some d := fun hd => h (by rw [List.getLast?_cons, hd, Option.getD_some])

/-- A path is mangled part by part, where no separator reaches from one part into the other and no
bracket at the end of the first is the last character. -/
theorem manglePath_append (hrest : rest.head? ≠ some ':')
    (hend : rest = [] → front.getLast? ≠ some '>') :
    manglePath (front ++ rest) = mangleFront front ++ manglePath rest := by
  fun_induction mangleFront front with
  | case1 => rfl
  | case2 cs ih =>
    rw [List.cons_append, List.cons_append, manglePath, List.cons_append,
      ih fun h => getLast?_ne_of_cons (getLast?_ne_of_cons (hend h))]
  | case3 cs ih =>
    have hne : cs ++ rest ≠ [] := fun h => by
      obtain ⟨rfl, hr⟩ := List.append_eq_nil_iff.mp h
      exact hend hr rfl
    rw [List.cons_append, manglePath, if_neg hne, List.cons_append,
      ih fun h => getLast?_ne_of_cons (hend h)]
  | case4 cs ih =>
    rw [List.cons_append, manglePath, ih fun h => getLast?_ne_of_cons (hend h)]
    rfl
  | case5 cs ih =>
    rw [List.cons_append, manglePath, ih fun h => getLast?_ne_of_cons (hend h)]
    rfl
  | case6 c cs hseparator hclose hpointer hreference ih =>
    rw [List.cons_append, manglePath, ih fun h => getLast?_ne_of_cons (hend h)]
    · rfl
    · -- a separator does not begin with the last character of the front
      rintro ds rfl hds
      cases cs with
      | nil =>
        rw [List.nil_append] at hds
        exact hrest (by rw [hds]; rfl)
      | cons d cs =>
        rw [List.cons_append, List.cons.injEq] at hds
        exact hseparator cs rfl (by rw [hds.1])
    · exact hclose
    · exact hpointer
    · exact hreference

/-- A pattern that begins in the front does not reach into the rest, since a character next to the
border is none of the pattern's. -/
theorem isPrefixOf_append {pattern : List Char}
    (h : (∃ c, front.getLast? = some c ∧ c ∉ pattern) ∨ ∀ c, rest.head? = some c → c ∉ pattern) :
    pattern.isPrefixOf (front ++ rest) = pattern.isPrefixOf front := by
  rw [Bool.eq_iff_iff, List.isPrefixOf_iff_prefix, List.isPrefixOf_iff_prefix]
  refine ⟨fun hp => ?_, fun hp => hp.trans (List.prefix_append front rest)⟩
  obtain ⟨reached, hfront⟩ | hp :=
    List.prefix_or_prefix_of_prefix (List.prefix_append front rest) hp
  · cases reached with
    | nil => exact ⟨[], by rw [← hfront, List.append_nil, List.append_nil]⟩
    | cons d reached =>
      exfalso
      obtain ⟨c, hlast, hc⟩ | hfirst := h
      · exact hc (hfront ▸ List.mem_append_left _ (List.mem_of_getLast? hlast))
      · refine hfirst d ?_ (hfront ▸ List.mem_append_right _ List.mem_cons_self)
        obtain ⟨more, hmore⟩ := hp
        rw [← hfront, List.append_assoc, List.append_cancel_left_eq] at hmore
        rw [← hmore]
        rfl
  · exact hp

/-- The last operator of the rest is the last one of the whole. -/
theorem cutOperator_append_of_some {before behind : List Char}
    (h : cutOperator rest = some (before, behind)) :
    cutOperator (front ++ rest) = some (front ++ before, behind) := by
  induction front with
  | nil => exact h
  | cons c front ih => rw [List.cons_append, cutOperator, ih]; rfl

/-- If the rest has no operator, the last one of the whole is the one of the front, where none
reaches from the front into the rest. -/
theorem cutOperator_append_of_none (h : cutOperator rest = none)
    (hreach : (∀ c, front.getLast? = some c → c ∉ operatorKeyword) ∨
      ∀ c, rest.head? = some c → c ∉ operatorKeyword) :
    cutOperator (front ++ rest) =
      (cutOperator front).map fun (before, behind) => (before, behind ++ rest) := by
  induction front with
  | nil =>
    rw [List.nil_append, h]
    rfl
  | cons c front ih =>
    have hlast : (c :: front).getLast? = some ((c :: front).getLast (by simp)) :=
      List.getLast?_eq_some_getLast _
    have hprefix : operatorKeyword.isPrefixOf (c :: front ++ rest) =
        operatorKeyword.isPrefixOf (c :: front) :=
      isPrefixOf_append (hreach.imp_left fun h => ⟨_, hlast, h _ hlast⟩)
    rw [List.cons_append] at hprefix
    have hrest := ih (hreach.imp_left fun h d hd => h d (by rw [List.getLast?_cons, hd]; rfl))
    rw [List.cons_append, cutOperator, cutOperator, hrest, hprefix]
    cases cutOperator front with
    | some cut => rfl
    | none =>
      dsimp only [Option.map_none]
      split
      · next hp =>
        have hlength : 8 ≤ (c :: front).length := (List.isPrefixOf_iff_prefix.mp hp).length_le
        rw [Option.map_some, ← List.cons_append, List.drop_append_of_le_length hlength]
      · rfl

def pathFront (path : String) : List Char := Text.dropBlanks path.toList ++ [':', ':']

/-- No part of the path looks like the name of an operator. -/
def PlainPath (path : String) : Prop := path = "" ∨ operatorName? (pathFront path) = none

instance (path : String) : Decidable (PlainPath path) := by
  unfold PlainPath; infer_instance

theorem cutOperator_eq_some {name before behind : List Char}
    (h : cutOperator name = some (before, behind)) :
    name = before ++ operatorKeyword ++ behind := by
  induction name generalizing before with
  | nil => cases h
  | cons c name ih =>
    rw [cutOperator] at h
    split at h
    · next cut hcut =>
      cases h
      rw [ih hcut]
      rfl
    · split at h
      · next hp =>
        cases h
        obtain ⟨behind, hbehind⟩ := List.isPrefixOf_iff_prefix.mp hp
        rw [← hbehind]
        rfl
      · cases h

theorem suffix_pathFront_append {path : String} {before : List Char}
    (h : before.head? ≠ some ':') :
    [':', ':'] <:+ pathFront path ++ before ↔ before = [] ∨ [':', ':'] <:+ before := by
  constructor
  · intro hs
    obtain hs | hs :=
      List.suffix_or_suffix_of_suffix hs (List.suffix_append (pathFront path) before)
    · exact .inr hs
    · match before with
      | [] => exact .inl rfl
      | c :: before =>
        have hc : c ∈ [':', ':'] := hs.subset List.mem_cons_self
        exact absurd (by simpa using hc) h
  · rintro (rfl | hs)
    · exact ⟨Text.dropBlanks path.toList, by simp [pathFront]⟩
    · exact hs.trans (List.suffix_append _ _)

/-- A name behind a plain path is an operator if it is one by itself. -/
theorem operatorName?_pathFront {path : String} {name : List Char}
    (hp : operatorName? (pathFront path) = none) (hn : name.head? ≠ some ':') :
    operatorName? (pathFront path ++ name) =
      (operatorName? name).map fun (before, behind) => (pathFront path ++ before, behind) := by
  have hne : pathFront path ≠ [] := by simp [pathFront]
  unfold operatorName? at hp ⊢
  cases hcut : cutOperator name with
  | some cut =>
    obtain ⟨before, behind⟩ := cut
    have hbefore : before.head? ≠ some ':' := by
      rw [cutOperator_eq_some hcut] at hn
      cases before with
      | nil => simp
      | cons c before => exact hn
    rw [cutOperator_append_of_some hcut]
    simp [Option.filter, suffix_pathFront_append hbefore, hne]
  | none =>
    have hlast : (pathFront path).getLast? = some ':' := by simp [pathFront]
    rw [cutOperator_append_of_none hcut (.inl fun c hc => by
      obtain rfl := Option.some.inj (hlast.symm.trans hc)
      decide)]
    cases hfront : cutOperator (pathFront path) with
    | none => rfl
    | some cut =>
      obtain ⟨before, behind⟩ := cut
      -- the separator stands behind the keyword, so the name does not matter
      obtain ⟨c, behind, rfl⟩ : ∃ c cs, behind = c :: cs := by
        cases behind with
        | cons c cs => exact ⟨c, cs, rfl⟩
        | nil =>
          rw [cutOperator_eq_some hfront, List.append_nil] at hlast
          simp [operatorKeyword] at hlast
      rw [hfront] at hp
      rw [Option.map_some, Option.filter_none, Option.map_none]
      simpa only [Option.filter_eq_none_iff, Option.some.injEq, forall_eq', List.cons_append,
        List.head?_cons] using hp

/-- A name behind a plain path is mangled apart from the path. -/
theorem mangleChars_pathFront {path : String} {name : List Char}
    (hp : operatorName? (pathFront path) = none) (hn : name.head? ≠ some ':') :
    mangleChars (pathFront path ++ name) = mangleFront (pathFront path) ++ mangleChars name := by
  have hend : ∀ rest : List Char, rest = [] → (pathFront path).getLast? ≠ some '>' :=
    fun rest _ => by simp [pathFront]
  rw [mangleChars, mangleChars, operatorName?_pathFront hp hn]
  cases hop : operatorName? name with
  | none => exact manglePath_append hn (hend name)
  | some cut =>
    obtain ⟨before, behind⟩ := cut
    have hcut := cutOperator_eq_some (Option.filter_eq_some_iff.mp hop).1
    have hhead : (before ++ operatorKeyword).head? ≠ some ':' := by
      rw [hcut] at hn
      cases before with
      | nil => decide
      | cons c before => exact hn
    simp only [Option.map_some]
    rw [List.append_assoc (pathFront path), manglePath_append hhead (hend _), List.append_assoc]

def Digits (cs : List Char) : Prop := ∀ c ∈ cs, c.isDigit = true

theorem mem_digits_of_isDigit {c : Char} (h : c.isDigit = true) : c ∈ "0123456789".toList := by
  have hbounds : 48 ≤ c.toNat ∧ c.toNat ≤ 57 := by
    show '0'.val.toNat ≤ c.val.toNat ∧ c.val.toNat ≤ '9'.val.toNat
    simpa only [Char.isDigit, Bool.and_eq_true, decide_eq_true_eq, ge_iff_le,
      UInt32.le_iff_toNat_le] using h
  have hcases : c.toNat = 48 ∨ c.toNat = 49 ∨ c.toNat = 50 ∨ c.toNat = 51 ∨ c.toNat = 52 ∨
      c.toNat = 53 ∨ c.toNat = 54 ∨ c.toNat = 55 ∨ c.toNat = 56 ∨ c.toNat = 57 := by omega
  have hofNat : c = Char.ofNat c.toNat := (Char.ofNat_toNat c).symm
  obtain h | h | h | h | h | h | h | h | h | h := hcases <;>
  · rw [hofNat, h]
    decide

theorem digit_facts : ∀ c ∈ "0123456789".toList, Text.isIdentChar c = true ∧
    Text.isBlank c = false ∧ c ∉ operatorKeyword ∧ c ∉ [':', '>', '*', '&'] ∧
    ∀ entry ∈ operatorWords, c ∉ entry.1 := by
  have hall : ("0123456789".toList.all fun c => Text.isIdentChar c && !Text.isBlank c &&
      !operatorKeyword.contains c && !([':', '>', '*', '&'].contains c) &&
      operatorWords.all fun entry => !entry.1.contains c) = true := by decide
  intro c hc
  have hfacts := List.all_eq_true.mp hall c hc
  simp only [Bool.and_eq_true, Bool.not_eq_true', List.all_eq_true, ← Bool.not_eq_true,
    List.contains_iff_mem] at hfacts
  obtain ⟨⟨⟨⟨hident, hblank⟩, hkeyword⟩, hplain⟩, hwords⟩ := hfacts
  exact ⟨hident, Bool.eq_false_iff.mpr hblank, hkeyword, hplain, hwords⟩

theorem token_ne_nil : ∀ entry ∈ operatorWords, entry.1 ≠ [] := by decide

theorem Digits.cons {c : Char} (h : Digits (c :: digits)) : c.isDigit = true ∧ Digits digits :=
  List.forall_mem_cons.mp h

theorem manglePath_eq_self {cs : List Char} (h : ∀ c ∈ cs, Text.isIdentChar c = true) :
    manglePath cs = cs := by
  induction cs with
  | nil => rfl
  | cons c cs ih =>
    have hc : Text.isIdentChar c = true := h c List.mem_cons_self
    have hother : ∀ d, Text.isIdentChar d = false → c ≠ d := by
      rintro d hd rfl
      simp [hc] at hd
    rw [manglePath, if_pos hc, ih fun d hd => h d (List.mem_cons_of_mem c hd)]
    · exact fun _ h _ => hother ':' (by decide) h
    · exact hother '>' (by decide)
    · exact hother '*' (by decide)
    · exact hother '&' (by decide)

theorem Digits.manglePath_eq (h : Digits digits) : manglePath digits = digits :=
  manglePath_eq_self fun c hc => (digit_facts c (mem_digits_of_isDigit (h c hc))).1

theorem Digits.isPrefixOf_append (h : Digits digits) {entry : List Char × List Char}
    (he : entry ∈ operatorWords) (front : List Char) :
    entry.1.isPrefixOf (front ++ digits) = entry.1.isPrefixOf front :=
  ExportName.isPrefixOf_append (.inr fun c hc =>
    (digit_facts c (mem_digits_of_isDigit (h c (List.mem_of_head? hc)))).2.2.2.2 entry he)

theorem Digits.mangleOperator_append (h : Digits digits) {skip : Nat}
    (hskip : skip ≤ front.length) :
    mangleOperator skip (front ++ digits) = mangleOperator skip front ++ digits := by
  have hdigits : mangleOperator 0 digits = digits := by
    clear hskip
    induction digits with
    | nil => rfl
    | cons c digits ih =>
      obtain ⟨hc, hrest⟩ := h.cons
      have hnone : operatorWords.find? (fun entry => entry.1.isPrefixOf (c :: digits)) = none := by
        refine List.find?_eq_none.mpr fun entry he => ?_
        have hempty := h.isPrefixOf_append he []
        rw [List.nil_append] at hempty
        rw [hempty, List.isPrefixOf_iff_prefix, List.prefix_nil]
        exact token_ne_nil entry he
      rw [mangleOperator, hnone, ih hrest]
      exact congrArg (· :: digits) (if_pos (digit_facts c (mem_digits_of_isDigit hc)).1)
  induction front generalizing skip with
  | nil =>
    obtain rfl : skip = 0 := Nat.le_zero.mp hskip
    exact hdigits
  | cons c front ih =>
    cases skip with
    | succ skip => exact ih (Nat.succ_le_succ_iff.mp hskip)
    | zero =>
      have hfind : operatorWords.find? (fun entry => entry.1.isPrefixOf (c :: (front ++ digits))) =
          operatorWords.find? fun entry => entry.1.isPrefixOf (c :: front) :=
        List.find?_congr fun entry he => h.isPrefixOf_append he (c :: front)
      rw [List.cons_append, mangleOperator, mangleOperator, hfind]
      split
      · next token word hsome =>
        have hprefix := List.find?_some hsome
        have hlength := (List.isPrefixOf_iff_prefix.mp hprefix).length_le
        simp only [List.length_cons] at hlength
        rw [ih (by omega), List.append_assoc]
      · rw [ih (Nat.zero_le _), List.cons_append]

theorem Digits.operatorName?_append (h : Digits digits) (hne : digits ≠ []) (stem : List Char) :
    operatorName? (stem ++ digits) =
      (operatorName? stem).map fun (before, behind) => (before, behind ++ digits) := by
  have hcut : cutOperator digits = none := by
    cases hcut : cutOperator digits with
    | none => rfl
    | some cut =>
      have hmem : 'o' ∈ digits := by
        rw [cutOperator_eq_some hcut]
        simp [operatorKeyword]
      exact absurd (h 'o' hmem) (by decide)
  obtain ⟨c, rest, rfl⟩ := List.exists_cons_of_ne_nil hne
  obtain ⟨hident, -, hkeyword, -⟩ := digit_facts c (mem_digits_of_isDigit h.cons.1)
  rw [operatorName?, operatorName?, cutOperator_append_of_none hcut (.inr fun d hd => by
    obtain rfl := Option.some.inj hd
    exact hkeyword)]
  cases cutOperator stem with
  | none => rfl
  | some cut =>
    obtain ⟨before, behind⟩ := cut
    cases behind <;> simp [Option.filter, hident]

/-- What stands in front of a number is mangled in one way, whatever the number is. It is mangled so
without a number too, where it does not end with a bracket that would be dropped. -/
theorem exists_mangleChars_append_digits (stem : List Char) : ∃ mangled, ∀ digits,
    Digits digits → (stem ++ digits).getLast? ≠ some '>' →
      mangleChars (stem ++ digits) = mangled ++ digits := by
  have hop : ∀ digits, Digits digits → operatorName? (stem ++ digits) =
      (operatorName? stem).map fun (before, behind) => (before, behind ++ digits) := by
    intro digits h
    by_cases hne : digits = []
    · simp [hne]
    · exact h.operatorName?_append hne stem
  cases hstem : operatorName? stem with
  | some cut =>
    obtain ⟨before, behind⟩ := cut
    refine ⟨manglePath (before ++ operatorKeyword) ++ mangleOperator 0 behind,
      fun digits h _ => ?_⟩
    rw [mangleChars, hop digits h, hstem, Option.map_some]
    dsimp only
    rw [h.mangleOperator_append (Nat.zero_le _), List.append_assoc]
  | none =>
    refine ⟨mangleFront stem, fun digits h hend => ?_⟩
    rw [mangleChars, hop digits h, hstem, Option.map_none]
    dsimp only
    rw [manglePath_append ?_ fun he => by rwa [he, List.append_nil] at hend, h.manglePath_eq]
    intro hcolon
    exact absurd (h ':' (List.mem_of_head? hcolon)) (by decide)

theorem Digits.getLast?_append_ne (h : Digits digits) (hne : digits ≠ []) (stem : List Char) :
    (stem ++ digits).getLast? ≠ some '>' := by
  obtain ⟨before, c, rfl⟩ := digits.eq_nil_or_concat.resolve_left hne
  have hc : c.isDigit = true := h c (by simp)
  rw [List.concat_eq_append, ← List.append_assoc, List.getLast?_concat]
  rintro ⟨rfl⟩
  exact absurd hc (by decide)

theorem digits_toString (n : Nat) : Digits (toString n).toList ∧ (toString n).toList ≠ [] := by
  rw [Nat.toString_eq_repr, Nat.toList_repr]
  exact ⟨fun c hc => Nat.isDigit_of_mem_toDigits (by decide) (by decide) hc, Nat.toDigits_ne_nil⟩

theorem toString_inj {n n' : Nat} (h : (toString n).toList = (toString n').toList) : n = n' := by
  rw [Nat.toString_eq_repr, Nat.toString_eq_repr, Nat.toList_repr, Nat.toList_repr] at h
  rw [← Nat.ofDigitChars_ten_toDigits (n := n), h, Nat.ofDigitChars_ten_toDigits]

theorem Digits.dropBlanks_eq (h : Digits digits) : Text.dropBlanks digits = digits :=
  List.filter_eq_self.mpr fun c hc => by
    rw [(digit_facts c (mem_digits_of_isDigit (h c hc))).2.1]
    rfl

theorem mangle_number_inj {libraryPrefix path stem : String} {n n' : Nat}
    (h : mangle libraryPrefix (Path.qualify path (stem ++ toString n)) =
      mangle libraryPrefix (Path.qualify path (stem ++ toString n'))) : n = n' := by
  obtain ⟨mangled, hmangled⟩ :=
    exists_mangleChars_append_digits (Text.dropBlanks (Path.qualify path stem).toList)
  have hchars : ∀ n : Nat,
      mangleChars (Text.dropBlanks (Path.qualify path (stem ++ toString n)).toList) =
        mangled ++ (toString n).toList := by
    intro n
    obtain ⟨hdigits, hne⟩ := digits_toString n
    have hsplit : (Path.qualify path (stem ++ toString n)).toList =
        (Path.qualify path stem).toList ++ (toString n).toList := by
      unfold Path.qualify
      split <;> simp only [String.toList_append, List.append_assoc]
    rw [hsplit, Text.dropBlanks_append, hdigits.dropBlanks_eq,
      hmangled _ hdigits (hdigits.getLast?_append_ne hne _)]
  rw [mangle, mangle, hchars, hchars, String.append_right_inj, String.ofList_inj,
    List.append_cancel_left_eq] at h
  exact toString_inj h

def scopeFront (path : String) : List Char :=
  if path = "" then [] else mangleFront (pathFront path)

theorem mangle_qualify {path name : String} (hp : PlainPath path)
    (hn : (Text.dropBlanks name.toList).head? ≠ some ':') (libraryPrefix : String) :
    mangle libraryPrefix (Path.qualify path name) = libraryPrefix ++
      String.ofList (scopeFront path ++ mangleChars (Text.dropBlanks name.toList)) := by
  rw [mangle, scopeFront]
  by_cases he : path = ""
  · rw [he, Path.qualify_empty, if_pos rfl, List.nil_append]
  · have hsplit : Text.dropBlanks (Path.qualify path name).toList =
        pathFront path ++ Text.dropBlanks name.toList := by
      rw [Path.qualify, if_neg he, String.toList_append, String.toList_append,
        Text.dropBlanks_append, Text.dropBlanks_append]
      rfl
    rw [hsplit, mangleChars_pathFront (hp.resolve_left he) hn, if_neg he]

/-- In a scope with a plain path two names are exported under one name exactly if they would be in
the root. -/
theorem mangle_qualify_eq_iff {libraryPrefix path name name' : String} (hp : PlainPath path)
    (hn : (Text.dropBlanks name.toList).head? ≠ some ':')
    (hn' : (Text.dropBlanks name'.toList).head? ≠ some ':') :
    mangle libraryPrefix (Path.qualify path name) = mangle libraryPrefix (Path.qualify path name') ↔
      mangle libraryPrefix name = mangle libraryPrefix name' := by
  rw [mangle_qualify hp hn, mangle_qualify hp hn', mangle, mangle]
  simp only [String.append_right_inj, String.ofList_inj, List.append_cancel_left_eq]

end ExportName

end ApiModel
