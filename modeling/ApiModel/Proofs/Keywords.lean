import Mathlib.Data.List.Basic
import Mathlib.Data.List.Induction
import ApiModel.Text.Substitute

/-!
Keywords that stand alone in a text, with no identifier character next to them. Main statement: the
removal of a keyword deletes these occurrences and keeps all other characters in order. A character
that no identifier holds cuts a text into two that are read on their own.
-/

namespace ApiModel.Text

variable {keyword text front rest cs : List Char} {c d : Char} {i j n : Nat}

/-- The keyword stands at place `i` of the text, and no identifier character stands next to it. -/
structure StandsAlone (keyword text : List Char) (i : Nat) : Prop where
  here : keyword <+: text.drop i
  before : i = 0 ∨ isBoundary text[i - 1]? = true
  behind : isBoundary text[i + keyword.length]? = true

instance : Decidable (StandsAlone keyword text i) :=
  decidable_of_iff (keyword <+: text.drop i ∧ (i = 0 ∨ isBoundary text[i - 1]? = true) ∧
      isBoundary text[i + keyword.length]? = true)
    ⟨fun h => ⟨h.1, h.2.1, h.2.2⟩, fun h => ⟨h.here, h.before, h.behind⟩⟩

/-- The character at place `j` belongs to an occurrence that stands alone. -/
def IsCovered (keyword text : List Char) (j : Nat) : Prop :=
  ∃ i ≤ j, j < i + keyword.length ∧ StandsAlone keyword text i

instance : Decidable (IsCovered keyword text j) :=
  inferInstanceAs (Decidable (∃ i ≤ j, j < i + keyword.length ∧ StandsAlone keyword text i))

/-- What is left of `cs`, which stands at place `n` of the text, without the covered characters. -/
def uncovered (keyword text : List Char) (n : Nat) (cs : List Char) : List Char :=
  ((cs.zipIdx n).filter fun p => ¬ IsCovered keyword text p.2).map Prod.fst

/-- The text without the occurrences of the keyword that stand alone. -/
def withoutAlone (keyword text : List Char) : List Char := uncovered keyword text 0 text

theorem prefix_drop_append (keyword front cs : List Char) :
    keyword <+: (front ++ (keyword ++ cs)).drop front.length := by
  rw [List.drop_left]
  exact List.prefix_append keyword cs

theorem uncovered_append (cs ds : List Char) :
    uncovered keyword text n (cs ++ ds) =
      uncovered keyword text n cs ++ uncovered keyword text (n + cs.length) ds := by
  rw [uncovered, List.zipIdx_append, List.filter_append, List.map_append]
  rfl

theorem uncovered_eq_self (h : ∀ j, n ≤ j → j < n + cs.length → ¬ IsCovered keyword text j) :
    uncovered keyword text n cs = cs := by
  have hall : (cs.zipIdx n).filter (fun p => ¬ IsCovered keyword text p.2) = cs.zipIdx n :=
    List.filter_eq_self.mpr fun p hp => decide_eq_true (h p.2 (List.le_snd_of_mem_zipIdx hp)
      (Nat.add_comm _ _ ▸ List.snd_lt_of_mem_zipIdx hp))
  rw [uncovered, hall, List.zipIdx_map_fst]

theorem uncovered_eq_nil (h : ∀ j, n ≤ j → j < n + cs.length → IsCovered keyword text j) :
    uncovered keyword text n cs = [] := by
  have hnone : (cs.zipIdx n).filter (fun p => ¬ IsCovered keyword text p.2) = [] :=
    List.filter_eq_nil_iff.mpr fun p hp hnot => of_decide_eq_true hnot
      (h p.2 (List.le_snd_of_mem_zipIdx hp) (Nat.add_comm _ _ ▸ List.snd_lt_of_mem_zipIdx hp))
  rw [uncovered, hnone, List.map_nil]

/-- A keyword is a word: it has letters, and only characters that identifiers may hold. -/
structure IsKeyword (keyword : List Char) : Prop where
  ne_nil : keyword ≠ []
  letters : ∀ c ∈ keyword, isIdentChar c = true

theorem isKeyword_const : IsKeyword "const".toList where
  ne_nil := by decide
  letters := List.all_eq_true.mp (by decide)

namespace IsKeyword

variable (hk : IsKeyword keyword)

include hk

theorem length_pos : 0 < keyword.length := List.length_pos_iff.mpr hk.ne_nil

theorem isBoundary_inside (h : keyword <+: text.drop i) (hij : i ≤ j)
    (hj : j < i + keyword.length) : isBoundary text[j]? = false := by
  obtain ⟨k, rfl⟩ := Nat.exists_eq_add_of_le hij
  have hlt : k < keyword.length := Nat.lt_of_add_lt_add_left hj
  have hchar : text[i + k]? = some keyword[k] := by
    rw [← List.getElem?_drop]
    exact List.prefix_iff_getElem?.mp h k hlt
  rw [hchar, isBoundary, Option.any_some, hk.letters _ (List.getElem_mem hlt), Bool.not_true]

theorem isBoundary_head? (h : keyword <+: cs) : isBoundary cs.head? = false := by
  rw [List.head?_eq_getElem?]
  exact hk.isBoundary_inside (i := 0) h (Nat.le_refl 0) (by simpa using hk.length_pos)

/-- An occurrence that stands alone overlaps no other one: the other would hold a neighbour. -/
theorem eq_of_overlap (h : StandsAlone keyword text i) (h' : keyword <+: text.drop j)
    (hij : i < j + keyword.length) (hji : j < i + keyword.length) : i = j := by
  obtain hlt | heq | hgt := Nat.lt_trichotomy i j
  · have hinside := hk.isBoundary_inside h' (Nat.le_of_lt hji) (by omega)
    rw [h.behind] at hinside
    cases hinside
  · exact heq
  · have hinside := hk.isBoundary_inside h' (by omega : j ≤ i - 1) (by omega)
    obtain rfl | hbefore := h.before
    · exact absurd hgt (Nat.not_lt_zero j)
    · rw [hbefore] at hinside
      cases hinside

theorem isCovered_iff_of_occurrence (h : keyword <+: text.drop i) (hij : i ≤ j)
    (hj : j < i + keyword.length) : IsCovered keyword text j ↔ StandsAlone keyword text i := by
  constructor
  · rintro ⟨i', hi', hj', alone⟩
    exact hk.eq_of_overlap alone h (by omega) (by omega) ▸ alone
  · exact fun alone => ⟨i, hij, hj, alone⟩

theorem occurrence_induction {motive : List Char → Prop} (nil : motive [])
    (letter : ∀ c cs, ¬ keyword <+: c :: cs → motive cs → motive (c :: cs))
    (occurrence : ∀ cs, motive cs → motive (keyword ++ cs)) (cs : List Char) : motive cs := by
  induction hn : cs.length using Nat.strongRecOn generalizing cs with
  | ind n ih =>
    by_cases h : keyword <+: cs
    · obtain ⟨cs, rfl⟩ := h
      have hpos := hk.length_pos
      exact occurrence cs (ih cs.length (by rw [← hn, List.length_append]; omega) cs rfl)
    · cases cs with
      | nil => exact nil
      | cons c cs => exact letter c cs h (ih cs.length (by rw [← hn]; simp) cs rfl)

end IsKeyword

theorem removeKeywordFrom_length (out passed cs rest : List Char) :
    removeKeywordFrom keyword cs.length out passed (cs ++ rest) =
      removeKeywordFrom keyword 0 out passed rest := by
  induction cs with
  | nil => rfl
  | cons c cs ih => exact ih

theorem removeKeywordFrom_cons (out passed : List Char) (h : ¬ keyword <+: c :: cs) :
    removeKeywordFrom keyword 0 out passed (c :: cs) =
      removeKeywordFrom keyword 0 out (passed ++ [c]) cs := by
  rw [removeKeywordFrom, if_neg (mt List.isPrefixOf_iff_prefix.mp h)]

theorem IsKeyword.removeKeywordFrom_append (hk : IsKeyword keyword) (out passed cs : List Char) :
    removeKeywordFrom keyword 0 out passed (keyword ++ cs) =
      removeKeywordFrom keyword 0
        (out ++ passed ++ if hasBoundaries out passed cs then [] else keyword) [] cs := by
  obtain ⟨c, letters, rfl⟩ := List.exists_cons_of_ne_nil hk.ne_nil
  have hfound : (c :: letters).isPrefixOf (c :: (letters ++ cs)) = true :=
    List.isPrefixOf_iff_prefix.mpr (List.prefix_append (c :: letters) cs)
  have hdrop : (c :: letters ++ cs).drop (c :: letters).length = cs := List.drop_left
  rw [List.cons_append] at hdrop ⊢
  rw [removeKeywordFrom, if_pos hfound, hdrop]
  exact removeKeywordFrom_length _ _ letters cs

/-- The scan has read `front`, and `cs` is to come: an occurrence that stands alone and starts in
`front` also ends there, and a keyword that comes next is judged by its neighbour in the text. -/
structure HasRead (keyword out passed front cs : List Char) : Prop where
  closed : ∀ i < front.length, StandsAlone keyword (front ++ cs) i →
    i + keyword.length ≤ front.length
  neighbour : keyword <+: cs →
    isBoundary (passed.getLast?.or out.getLast?) = isBoundary front.getLast?

namespace HasRead

variable {out passed : List Char}

theorem start (keyword cs : List Char) : HasRead keyword [] [] [] cs where
  closed _ hi := absurd hi (Nat.not_lt_zero _)
  neighbour _ := rfl

theorem restart (keyword : List Char) (hd : isIdentChar d = false) (out passed cs : List Char) :
    HasRead keyword out (passed ++ [d]) [] cs where
  closed _ hi := absurd hi (Nat.not_lt_zero _)
  neighbour _ := by
    rw [List.getLast?_concat, Option.some_or, isBoundary, Option.any_some, hd]
    rfl

theorem not_isCovered (h : HasRead keyword out passed front (c :: cs))
    (hno : ¬ keyword <+: c :: cs) : ¬ IsCovered keyword (front ++ c :: cs) front.length := by
  rintro ⟨i, hi, hlt, alone⟩
  obtain hi | rfl := Nat.lt_or_eq_of_le hi
  · exact absurd (h.closed i hi alone) (Nat.not_le_of_lt hlt)
  · exact hno (by simpa using alone.here)

theorem letter (h : HasRead keyword out passed front (c :: cs)) (hno : ¬ keyword <+: c :: cs) :
    HasRead keyword out (passed ++ [c]) (front ++ [c]) cs where
  closed i hi alone := by
    rw [List.append_assoc, List.singleton_append] at alone
    rw [List.length_append, List.length_singleton] at hi ⊢
    obtain hi | rfl := Nat.lt_or_eq_of_le (Nat.le_of_lt_succ hi)
    · exact Nat.le_succ_of_le (h.closed i hi alone)
    · exact absurd (by simpa using alone.here) hno
  neighbour _ := by rw [List.getLast?_concat, List.getLast?_concat, Option.some_or]

/-- The scan tells whether an occurrence stands alone in the text. -/
theorem standsAlone_iff (h : HasRead keyword out passed front (keyword ++ cs)) :
    StandsAlone keyword (front ++ (keyword ++ cs)) front.length ↔
      hasBoundaries out passed cs = true := by
  have hbehind : (front ++ (keyword ++ cs))[front.length + keyword.length]? = cs.head? := by
    rw [List.getElem?_append_right (Nat.le_add_right ..), Nat.add_sub_cancel_left,
      List.getElem?_append_right (Nat.le_refl _), Nat.sub_self, List.head?_eq_getElem?]
  have hbefore : (front.length = 0 ∨
      isBoundary (front ++ (keyword ++ cs))[front.length - 1]? = true) ↔
        isBoundary front.getLast? = true := by
    cases front using List.reverseRecOn with
    | nil => simp [isBoundary]
    | append_singleton front c => simp
  rw [hasBoundaries, Bool.and_eq_true, h.neighbour (List.prefix_append keyword cs), ← hbefore,
    ← hbehind]
  exact ⟨fun alone => ⟨alone.before, alone.behind⟩,
    fun both => ⟨prefix_drop_append keyword front cs, both.1, both.2⟩⟩

theorem uncovered_keyword (h : HasRead keyword out passed front (keyword ++ cs))
    (hk : IsKeyword keyword) :
    uncovered keyword (front ++ (keyword ++ cs)) front.length keyword =
      if hasBoundaries out passed cs then [] else keyword := by
  have hcovered : ∀ j, front.length ≤ j → j < front.length + keyword.length →
      (IsCovered keyword (front ++ (keyword ++ cs)) j ↔ hasBoundaries out passed cs = true) :=
    fun j hle hlt =>
      (hk.isCovered_iff_of_occurrence (prefix_drop_append keyword front cs) hle hlt).trans
        h.standsAlone_iff
  split
  · next hboth =>
    exact uncovered_eq_nil fun j hle hlt => (hcovered j hle hlt).mpr hboth
  · next hboth =>
    exact uncovered_eq_self fun j hle hlt => mt (hcovered j hle hlt).mp hboth

theorem occurrence (hk : IsKeyword keyword) (out passed front cs : List Char) :
    HasRead keyword (out ++ passed ++ if hasBoundaries out passed cs then [] else keyword) []
      (front ++ keyword) cs where
  closed i hi alone := by
    rw [List.append_assoc] at alone
    rw [List.length_append] at hi ⊢
    by_contra hover
    obtain rfl := hk.eq_of_overlap alone (prefix_drop_append keyword front cs) hi (by omega)
    exact hover (Nat.le_refl _)
  neighbour hcs := by
    -- a keyword that follows at once shows that this one was kept
    have hboth : hasBoundaries out passed cs = false := by
      rw [hasBoundaries, hk.isBoundary_head? hcs, Bool.and_false]
    rw [hboth, if_neg Bool.false_ne_true, List.getLast?_nil, Option.none_or,
      List.getLast?_append_of_ne_nil _ hk.ne_nil, List.getLast?_append_of_ne_nil _ hk.ne_nil]

/-- What a scan returns: what it has kept, and what is not covered of what is to come. -/
theorem removeKeywordFrom_eq (h : HasRead keyword out passed front cs) (hk : IsKeyword keyword) :
    removeKeywordFrom keyword 0 out passed cs =
      out ++ passed ++ uncovered keyword (front ++ cs) front.length cs := by
  induction cs using hk.occurrence_induction generalizing out passed front with
  | nil => exact (List.append_nil _).symm
  | letter c cs hno ih =>
    have hc : uncovered keyword (front ++ c :: cs) front.length [c] = [c] :=
      uncovered_eq_self fun j hle hlt => by
        obtain rfl : j = front.length := Nat.le_antisymm (Nat.le_of_lt_succ hlt) hle
        exact h.not_isCovered hno
    calc removeKeywordFrom keyword 0 out passed (c :: cs)
        = out ++ (passed ++ [c]) ++
            uncovered keyword ((front ++ [c]) ++ cs) (front ++ [c]).length cs := by
          rw [removeKeywordFrom_cons out passed hno, ih (h.letter hno)]
      _ = out ++ passed ++ ([c] ++ uncovered keyword (front ++ c :: cs) (front.length + 1) cs) := by
          simp
      _ = out ++ passed ++ uncovered keyword (front ++ c :: cs) front.length ([c] ++ cs) := by
          rw [uncovered_append, hc]
          rfl
  | occurrence cs ih =>
    calc removeKeywordFrom keyword 0 out passed (keyword ++ cs)
        = out ++ passed ++
            uncovered keyword (front ++ (keyword ++ cs)) front.length keyword ++ [] ++
              uncovered keyword ((front ++ keyword) ++ cs) (front ++ keyword).length cs := by
          rw [hk.removeKeywordFrom_append, ih (occurrence hk out passed front cs),
            h.uncovered_keyword hk]
      _ = out ++ passed ++
            uncovered keyword (front ++ (keyword ++ cs)) front.length (keyword ++ cs) := by
          rw [uncovered_append]
          simp

end HasRead

namespace IsKeyword

variable {out passed : List Char} (hk : IsKeyword keyword)

include hk

theorem removeKeyword_eq (text : List Char) :
    removeKeyword keyword text = withoutAlone keyword text :=
  (HasRead.start keyword text).removeKeywordFrom_eq hk

theorem removeKeyword_sublist (text : List Char) : (removeKeyword keyword text).Sublist text := by
  have hsub : (withoutAlone keyword text).Sublist (text.zipIdx.map Prod.fst) :=
    List.filter_sublist.map Prod.fst
  rwa [List.zipIdx_map_fst, ← hk.removeKeyword_eq] at hsub

theorem removeKeyword_word (h : ∀ c ∈ cs, isIdentChar c = true) (hne : cs ≠ keyword) :
    removeKeyword keyword cs = cs := by
  have hinside : ∀ j < cs.length, isBoundary cs[j]? = false := fun j hj => by
    rw [List.getElem?_eq_getElem hj, isBoundary, Option.any_some, h _ (List.getElem_mem hj),
      Bool.not_true]
  rw [hk.removeKeyword_eq]
  refine uncovered_eq_self fun j _ hj => ?_
  rintro ⟨i, hij, -, alone⟩
  obtain rfl : i = 0 := by
    obtain hzero | hbefore := alone.before
    · exact hzero
    · rw [hinside _ (by omega)] at hbefore
      cases hbefore
  have hlen : cs.length ≤ keyword.length := by
    by_contra hlonger
    have hbehind := alone.behind
    rw [hinside _ (by omega)] at hbehind
    cases hbehind
  exact hne (alone.here.eq_of_length_le hlen).symm

variable (hd : isIdentChar d = false)

include hd

theorem prefix_append_cons_iff (cs rest : List Char) :
    keyword <+: cs ++ d :: rest ↔ keyword <+: cs := by
  refine ⟨fun h => ?_, fun h => h.trans (List.prefix_append cs _)⟩
  refine List.prefix_of_prefix_length_le h (List.prefix_append cs _) ?_
  by_contra hlonger
  have hinside := hk.isBoundary_inside (i := 0) h (Nat.zero_le cs.length) (by omega)
  simp [isBoundary, hd] at hinside

theorem removeKeywordFrom_concat (rest : List Char) :
    removeKeywordFrom keyword 0 out (passed ++ [d]) rest =
      out ++ passed ++ d :: removeKeyword keyword rest := by
  rw [(HasRead.restart keyword hd out passed rest).removeKeywordFrom_eq hk, hk.removeKeyword_eq]
  simp [withoutAlone]

theorem removeKeywordFrom_append_cons :
    removeKeywordFrom keyword 0 out passed (cs ++ d :: rest) =
      removeKeywordFrom keyword 0 out passed cs ++ d :: removeKeyword keyword rest := by
  induction cs using hk.occurrence_induction generalizing out passed with
  | nil =>
    have hno : ¬ keyword <+: d :: rest := fun h =>
      hk.ne_nil (List.prefix_nil.mp ((hk.prefix_append_cons_iff hd [] rest).mp h))
    rw [List.nil_append, removeKeywordFrom_cons out passed hno, hk.removeKeywordFrom_concat hd]
    rfl
  | letter c cs hno ih =>
    have hno' : ¬ keyword <+: c :: (cs ++ d :: rest) :=
      mt (hk.prefix_append_cons_iff hd (c :: cs) rest).mp hno
    rw [List.cons_append, removeKeywordFrom_cons out passed hno', ih,
      removeKeywordFrom_cons out passed hno]
  | occurrence cs ih =>
    have hboth : hasBoundaries out passed (cs ++ d :: rest) = hasBoundaries out passed cs := by
      cases cs with
      | nil => simp [hasBoundaries, isBoundary, hd]
      | cons c cs => rfl
    rw [List.append_assoc, hk.removeKeywordFrom_append, hk.removeKeywordFrom_append, hboth, ih]

theorem removeKeyword_append_cons :
    removeKeyword keyword (cs ++ d :: rest) =
      removeKeyword keyword cs ++ d :: removeKeyword keyword rest :=
  hk.removeKeywordFrom_append_cons hd

end IsKeyword

theorem removeConst_sublist (cs : List Char) : (removeConst cs).Sublist cs :=
  isKeyword_const.removeKeyword_sublist cs

theorem removeConst_word (h : ∀ c ∈ cs, isIdentChar c = true) (hne : cs ≠ "const".toList) :
    removeConst cs = cs :=
  isKeyword_const.removeKeyword_word h hne

theorem removeConst_append_cons (hd : isIdentChar d = false) :
    removeConst (cs ++ d :: rest) = removeConst cs ++ d :: removeConst rest :=
  isKeyword_const.removeKeyword_append_cons hd

theorem removeConst_cons (hd : isIdentChar d = false) :
    removeConst (d :: rest) = d :: removeConst rest := by
  have hcut : removeConst ([] ++ d :: rest) = removeConst [] ++ d :: removeConst rest :=
    removeConst_append_cons hd
  simpa using hcut

theorem removeConst_keyword : removeConst "const".toList = [] := by decide

theorem removeConst_keyword_append (h : isBoundary cs.head? = true) :
    removeConst ("const".toList ++ cs) = removeConst cs := by
  cases cs with
  | nil => exact removeConst_keyword
  | cons d cs =>
    have hd : isIdentChar d = false := by simpa [isBoundary] using h
    rw [removeConst_append_cons hd, removeConst_keyword, removeConst_cons hd, List.nil_append]

/-- Just the consts that no identifier character precedes or follows are deleted from a text. -/
theorem removeKeyword_const_eq_withoutAlone (text : List Char) :
    removeKeyword "const".toList text = withoutAlone "const".toList text :=
  isKeyword_const.removeKeyword_eq text

example : removeKeyword "const".toList "const constconst*const const_".toList =
    " constconst* const_".toList := by decide

end ApiModel.Text
