import Mathlib.Data.List.TakeDrop
import Mathlib.Data.List.TakeWhile
import Mathlib.Tactic.Set
import ApiModel.Lookup.Find
import ApiModel.Proofs.Keywords
import ApiModel.Proofs.Names

/-!
Names with template brackets: where they are cut, and what can be said of the brackets in names that
are made from names without.
-/

namespace ApiModel

namespace Text

theorem mem_replaceFrom {pattern replacement : List Char} {skip : Nat} {cs : List Char} {c : Char}
    (h : c ∈ replaceFrom pattern replacement skip cs) : c ∈ replacement ∨ c ∈ cs := by
  fun_induction replaceFrom pattern replacement skip cs with
  | case1 => cases h
  | case2 skip d cs ih => exact (ih h).imp_right (List.mem_cons_of_mem d)
  | case3 d cs hp ih =>
    obtain h | h := List.mem_append.mp h
    · exact .inl h
    · exact (ih h).imp_right (List.mem_cons_of_mem d)
  | case4 d cs hp ih =>
    obtain rfl | h := List.mem_cons.mp h
    · exact .inr List.mem_cons_self
    · exact (ih h).imp_right (List.mem_cons_of_mem d)

theorem length_replaceFrom_le {pattern replacement : List Char}
    (hr : replacement.length ≤ pattern.length) (skip : Nat) (cs : List Char) :
    (replaceFrom pattern replacement skip cs).length ≤ cs.length - skip := by
  fun_induction replaceFrom pattern replacement skip cs with
  | case1 => simp
  | case2 skip c cs ih => simpa using ih
  | case3 c cs hp ih =>
    have hle := (List.isPrefixOf_iff_prefix.mp hp).length_le
    simp only [List.length_append, List.length_cons] at hle ⊢
    omega
  | case4 c cs hp ih => simpa using ih

end Text

namespace Name

theorem no_dot_normalizeQuery (query : String) : '.' ∉ (normalizeQuery query).toList := by
  rw [normalizeQuery, String.toList_ofList]
  exact fun h => (mem_dotsToSeparators (List.mem_filter.mp h).1).1 rfl

theorem mem_of_mem_normalizeQuery {query : String} {c : Char}
    (h : c ∈ (normalizeQuery query).toList) : c ∈ query.toList ∨ c = ':' ∨ c = 'u' := by
  rw [normalizeQuery, String.toList_ofList] at h
  obtain hspelled | hcolon := (mem_dotsToSeparators (List.mem_filter.mp h).1).2
  · obtain hu | hc := Text.mem_replaceFrom hspelled
    · exact .inr (.inr (List.mem_singleton.mp hu))
    · have hsub := (Text.removeConst_sublist _).trans (Text.trim_sublist query.toList)
      exact .inl (hsub.subset hc)
  · exact .inr (.inl hcolon)

theorem length_normalizeQuery_le {query : String} (h : '.' ∉ query.toList) :
    (normalizeQuery query).length ≤ query.length := by
  set unqualified := Text.removeConst (Text.trim query.toList) with hu
  have hsub : unqualified.Sublist query.toList :=
    (Text.removeConst_sublist _).trans (Text.trim_sublist _)
  set spelled := Text.replaceAll "unsigned ".toList ['u'] unqualified with hs
  have hspelled : spelled.length ≤ unqualified.length :=
    Text.length_replaceFrom_le (by decide) 0 unqualified
  have hdots : dotsToSeparators spelled = spelled := dotsToSeparators_eq_self fun hdot => by
    obtain hdot | hdot := Text.mem_replaceFrom hdot
    · revert hdot
      decide
    · exact h (hsub.subset hdot)
  calc (normalizeQuery query).length
      = (Text.dropBlanks (dotsToSeparators spelled)).length := by
        rw [normalizeQuery, ← String.length_toList, String.toList_ofList]
        rfl
    _ ≤ spelled.length := by
        rw [hdots]
        exact List.length_filter_le _ _
    _ ≤ unqualified.length := hspelled
    _ ≤ query.toList.length := hsub.length_le
    _ = query.length := String.length_toList

end Name

namespace TypeQuery

theorem split_eq_ok {query name : String} {markers : List Char}
    (h : split query = .ok (name, markers)) : name.toList.Sublist query.toList := by
  unfold split at h
  dsimp only at h
  split at h
  · cases h
  · cases h
    rw [String.toList_ofList]
    exact Text.dropEndWhile_sublist _ _

end TypeQuery

namespace Path

variable {depth : Int} {cs head tail : List Char}

theorem cutFirst_eq_some (h : cutFirst depth cs = some (head, tail)) :
    cs = head ++ ':' :: ':' :: tail := by
  fun_induction cutFirst depth cs generalizing head tail with
  | case1 cs =>
    cases h
    rfl
  | case2 depth cs hd ih =>
    obtain ⟨⟨head, tail⟩, hcut, he⟩ := Option.map_eq_some_iff.mp h
    cases he
    rw [ih hcut]
    rfl
  | case3 depth c cs hc ih =>
    obtain ⟨⟨head, tail⟩, hcut, he⟩ := Option.map_eq_some_iff.mp h
    cases he
    rw [ih hcut]
    rfl
  | case4 => cases h

theorem cutAfterBracket_eq_some {opened : Bool}
    (h : cutAfterBracket depth opened cs = some (head, tail)) :
    cs = head ++ ':' :: ':' :: tail := by
  fun_induction cutAfterBracket depth opened cs generalizing head tail with
  | case1 =>
    cases h
    rfl
  | case2 depth opened cs hd ih =>
    obtain ⟨⟨head, tail⟩, hcut, he⟩ := Option.map_eq_some_iff.mp h
    cases he
    rw [ih hcut]
    rfl
  | case3 depth opened c cs hc ih =>
    obtain ⟨⟨head, tail⟩, hcut, he⟩ := Option.map_eq_some_iff.mp h
    cases he
    rw [ih hcut]
    rfl
  | case4 => cases h

theorem splitFirst?_eq_some {name head tail : String} (h : splitFirst? name = some (head, tail)) :
    name.toList = head.toList ++ ':' :: ':' :: tail.toList := by
  obtain ⟨⟨head, tail⟩, hcut, he⟩ := Option.map_eq_some_iff.mp h
  cases he
  simpa using cutFirst_eq_some hcut

theorem splitAfterTemplate?_eq_some {name head tail : String}
    (h : splitAfterTemplate? name = some (head, tail)) :
    name.toList = head.toList ++ ':' :: ':' :: tail.toList := by
  obtain ⟨⟨head, tail⟩, hcut, he⟩ := Option.map_eq_some_iff.mp h
  cases he
  simpa using cutAfterBracket_eq_some hcut

theorem cutAfterBracket_eq_none (h : '<' ∉ cs) :
    cutAfterBracket depth false cs = none := by
  generalize ho : false = opened
  fun_induction cutAfterBracket depth opened cs with
  | case1 depth opened cs hd =>
    subst ho
    simp at hd
  | case2 depth opened cs hd ih =>
    simp only [List.mem_cons, not_or] at h
    rw [ih h.2.2 ho]
    rfl
  | case3 depth opened c cs hc ih =>
    simp only [List.mem_cons, not_or] at h
    have hclosed : false = (opened || decide (c = '<')) := by simp [← ho, Ne.symm h.1]
    rw [ih h.2 hclosed]
    rfl
  | case4 => rfl

theorem splitAfterTemplate?_eq_none {name : String} (h : '<' ∉ name.toList) :
    splitAfterTemplate? name = none := by
  rw [splitAfterTemplate?, cutAfterBracket_eq_none h]
  rfl

end Path

namespace Template

/-- No beginning of the text closes more brackets than it opens and are open before it. -/
def ClosesAtMost (depth : Nat) (cs : List Char) : Prop :=
  ∀ front, front <+: cs → front.count '>' ≤ depth + front.count '<'

theorem closesAtMost_nil (depth : Nat) : ClosesAtMost depth [] := by
  intro front hf
  simp [List.prefix_nil.mp hf]

theorem ClosesAtMost.cons {depth depth' : Nat} {c : Char} {cs : List Char}
    (h : ClosesAtMost depth cs) (hc : [c].count '>' + depth ≤ depth' + [c].count '<') :
    ClosesAtMost depth' (c :: cs) := by
  intro front hf
  obtain rfl | ⟨rest, rfl, hrest⟩ := List.prefix_cons_iff.mp hf
  · simp
  · have hle := h rest hrest
    rw [← List.singleton_append, List.count_append, List.count_append]
    omega

/-- Behind a character as many brackets may be closed as it leaves open. -/
theorem closesAtMost_cons_iff {depth depth' : Nat} {c : Char} {cs : List Char}
    (hc : depth + [c].count '<' = depth' + [c].count '>') :
    ClosesAtMost depth (c :: cs) ↔ ClosesAtMost depth' cs := by
  refine ⟨fun h front hfront => ?_, fun h => h.cons (by omega)⟩
  have hle := h (c :: front) ((List.prefix_cons_inj c).mpr hfront)
  rw [← List.singleton_append, List.count_append, List.count_append] at hle
  omega

theorem not_closesAtMost_closing (cs : List Char) : ¬ ClosesAtMost 0 ('>' :: cs) := fun h => by
  have hle := h ['>'] ⟨cs, rfl⟩
  simp at hle

/-- As many brackets are closed as are opened, and none before it is opened. -/
structure Balanced (text : List Char) : Prop where
  closes : ClosesAtMost 0 text
  count_eq : text.count '<' = text.count '>'

theorem enclosed?_eq_some {depth : Nat} {cs inner : List Char}
    (h : enclosed? depth cs = some inner) : cs = inner ++ ['>'] ∧ ClosesAtMost depth inner ∧
      depth + inner.count '<' = inner.count '>' := by
  fun_induction enclosed? depth cs generalizing inner with
  | case1 => cases h
  | case2 depth cs ih =>
    obtain ⟨inner, hin, rfl⟩ := Option.map_eq_some_iff.mp h
    obtain ⟨rfl, hcloses, hcount⟩ := ih hin
    refine ⟨rfl, hcloses.cons (by simp), ?_⟩
    rw [List.count_cons_self, List.count_cons_of_ne (by decide)]
    omega
  | case3 =>
    cases h
    exact ⟨rfl, closesAtMost_nil 0, rfl⟩
  | case4 => cases h
  | case5 depth cs ih =>
    obtain ⟨inner, hin, rfl⟩ := Option.map_eq_some_iff.mp h
    obtain ⟨rfl, hcloses, hcount⟩ := ih hin
    refine ⟨rfl, hcloses.cons (by simp [Nat.add_comm]), ?_⟩
    rw [List.count_cons_self, List.count_cons_of_ne (by decide)]
    omega
  | case6 depth c cs hopen hclose ih =>
    obtain ⟨inner, hin, rfl⟩ := Option.map_eq_some_iff.mp h
    obtain ⟨rfl, hcloses, hcount⟩ := ih hin
    refine ⟨rfl, hcloses.cons (by simp [show c ≠ '<' from hopen, show c ≠ '>' from hclose]), ?_⟩
    rw [List.count_cons_of_ne hopen, List.count_cons_of_ne hclose, hcount]

theorem enclosed?_closed {depth : Nat} {inner : List Char} (h : ClosesAtMost depth inner)
    (hd : depth + inner.count '<' = inner.count '>') :
    enclosed? depth (inner ++ ['>']) = some inner := by
  induction inner generalizing depth with
  | nil =>
    obtain rfl : depth = 0 := by simpa using hd
    rfl
  | cons c inner ih =>
    by_cases hopen : c = '<'
    · subst hopen
      rw [List.count_cons_self, List.count_cons_of_ne (by decide)] at hd
      have hrest := ih ((closesAtMost_cons_iff (by simp)).mp h) (by omega : depth + 1 + _ = _)
      rw [List.cons_append, enclosed?, hrest]
      rfl
    by_cases hclose : c = '>'
    · subst hclose
      rw [List.count_cons_self, List.count_cons_of_ne (by decide)] at hd
      cases depth with
      | zero => exact absurd h (not_closesAtMost_closing inner)
      | succ depth =>
        have hrest := ih ((closesAtMost_cons_iff (by simp)).mp h) (by omega : depth + _ = _)
        rw [List.cons_append, enclosed?, hrest]
        rfl
    · rw [List.count_cons_of_ne hopen, List.count_cons_of_ne hclose] at hd
      have hrest := ih ((closesAtMost_cons_iff (by simp [hopen, hclose])).mp h) hd
      rw [List.cons_append, enclosed?, hrest]
      · rfl
      · exact hopen
      · exact hclose

/-- A name is cut where its base ends, if a balanced text in brackets is all that follows. -/
theorem cut?_eq_some_iff {cs base inner : List Char} : cut? cs = some (base, inner) ↔
    cs = base ++ '<' :: (inner ++ ['>']) ∧ base ≠ [] ∧ '<' ∉ base ∧ Balanced inner := by
  have hall : ∀ {front : List Char}, '<' ∉ front → ∀ c ∈ front, decide (c ≠ '<') = true :=
    fun hfront c hc => decide_eq_true fun he => hfront (he ▸ hc)
  rw [cut?, List.span_eq_takeWhile_dropWhile]
  constructor
  · intro h
    split at h
    · next c front rest hspan =>
      obtain ⟨hfront, hrest⟩ := Prod.mk.inj hspan
      obtain ⟨inner, hin, he⟩ := Option.map_eq_some_iff.mp h
      cases he
      obtain ⟨rfl, hcloses, hcount⟩ := enclosed?_eq_some hin
      refine ⟨?_, by simp, ?_, hcloses, by rw [← hcount, Nat.zero_add]⟩
      · rw [← hfront, ← hrest, List.takeWhile_append_dropWhile]
      · rw [← hfront]
        intro hmem
        simpa using List.mem_takeWhile_imp hmem
    · cases h
  · rintro ⟨rfl, hne, hbase, hcloses, hcount⟩
    obtain ⟨c, front, rfl⟩ := List.exists_cons_of_ne_nil hne
    have hin : enclosed? 0 (inner ++ ['>']) = some inner :=
      enclosed?_closed hcloses (by rw [hcount, Nat.zero_add])
    rw [List.takeWhile_append_of_pos (hall hbase), List.dropWhile_append_of_pos (hall hbase)]
    simp [hin]

theorem split?_eq_some {name base : String} {arguments : List String}
    (h : split? name = some (base, arguments)) :
    ∃ inner, name.toList = base.toList ++ '<' :: (inner ++ ['>']) ∧ '<' ∉ base.toList ∧
      ClosesAtMost 0 inner ∧ arguments = (Template.arguments inner).map String.ofList := by
  obtain ⟨⟨front, inner⟩, hcut, he⟩ := Option.map_eq_some_iff.mp h
  cases he
  obtain ⟨hname, -, hfront, hinner⟩ := cut?_eq_some_iff.mp hcut
  rw [String.toList_ofList]
  exact ⟨inner, hname, hfront, hinner.closes, rfl⟩

theorem cutArguments_sublist {depth : Int} {cs part : List Char}
    (h : part ∈ cutArguments depth cs) : part.Sublist cs := by
  fun_induction cutArguments depth cs generalizing part with
  | case1 =>
    obtain rfl := List.mem_singleton.mp h
    exact .slnil
  | case2 depth c cs hc ih =>
    obtain rfl | h := List.mem_cons.mp h
    · exact List.nil_sublist _
    · exact (ih h).cons c
  | case3 depth c cs hc ih =>
    cases hparts : cutArguments (depth + Path.bracketStep c) cs with
    | nil =>
      rw [hparts] at h
      obtain rfl := List.mem_singleton.mp h
      exact (List.nil_sublist cs).cons_cons c
    | cons first rest =>
      rw [hparts] at h ih
      obtain rfl | h := List.mem_cons.mp h
      · exact (ih List.mem_cons_self).cons_cons c
      · exact (ih (List.mem_cons_of_mem first h)).cons c

theorem split?_eq_none {name : String} (h : '<' ∉ name.toList) : split? name = none := by
  cases hs : split? name with
  | none => rfl
  | some cut =>
    obtain ⟨base, arguments⟩ := cut
    obtain ⟨inner, hname, -⟩ := split?_eq_some hs
    exact absurd (by simp [hname]) h

theorem argument_sublist {name base argument : String} {arguments : List String}
    (h : split? name = some (base, arguments)) (ha : argument ∈ arguments) :
    argument.toList.Sublist name.toList ∧ argument.length < name.length := by
  obtain ⟨inner, hname, -, -, rfl⟩ := split?_eq_some h
  obtain ⟨cs, hcs, rfl⟩ := List.mem_map.mp ha
  obtain ⟨part, hpart, rfl⟩ := List.mem_map.mp (List.mem_filter.mp hcs).1
  have hinner : (Text.trim part).Sublist inner :=
    (Text.trim_sublist part).trans (cutArguments_sublist hpart)
  have hlength := hinner.length_le
  rw [String.toList_ofList, ← String.length_toList, ← String.length_toList, String.toList_ofList,
    hname]
  refine ⟨?_, by simp; omega⟩
  exact hinner.trans (((List.sublist_append_left inner ['>']).cons '<').trans
    (List.sublist_append_right _ _))

theorem head_sublist {name head tail : String}
    (h : Path.splitAfterTemplate? name = some (head, tail)) :
    head.toList.Sublist name.toList ∧ head.length < name.length := by
  have hname := Path.splitAfterTemplate?_eq_some h
  rw [← String.length_toList, ← String.length_toList, hname]
  exact ⟨List.sublist_append_left _ _, by simp⟩

def Closed (cs : List Char) : Prop := cs.count '<' ≤ cs.count '>'

/-- What stands behind the first opening bracket. -/
def behind (cs : List Char) : List Char := (cs.dropWhile (· ≠ '<')).tail

/-- If brackets are opened, more are closed behind the first of them than are opened there. So the
text does not end inside of template arguments. -/
def Closing (cs : List Char) : Prop :=
  '<' ∈ cs → (behind cs).count '<' < (behind cs).count '>'

variable {cs front rest inner head tail : List Char}

theorem closed_of_not_mem (h : '<' ∉ cs) : Closed cs := by
  rw [Closed, List.count_eq_zero_of_not_mem h]
  exact Nat.zero_le _

theorem closing_of_not_mem (h : '<' ∉ cs) : Closing cs := fun hmem => absurd hmem h

theorem Closed.append (h : Closed head) (h' : Closed tail) : Closed (head ++ tail) := by
  rw [Closed, List.count_append, List.count_append]
  exact Nat.add_le_add h h'

theorem behind_append_of_not_mem (h : '<' ∉ front) : behind (front ++ '<' :: rest) = rest := by
  rw [behind, List.dropWhile_append_of_pos fun c hc => by
    simpa using fun he : c = '<' => h (he ▸ hc)]
  simp

theorem behind_append_of_mem (h : '<' ∈ front) : behind (front ++ rest) = behind front ++ rest := by
  obtain ⟨a, b, rfl, ha⟩ := List.eq_append_cons_of_mem h
  rw [List.append_assoc, List.cons_append, behind_append_of_not_mem ha, behind_append_of_not_mem ha]

theorem Closing.closed (h : Closing cs) : Closed cs := by
  by_cases hmem : '<' ∈ cs
  · have hlt := h hmem
    obtain ⟨a, b, rfl, ha⟩ := List.eq_append_cons_of_mem hmem
    rw [behind_append_of_not_mem ha] at hlt
    rw [Closed, List.count_append, List.count_append, List.count_cons_self,
      List.count_cons_of_ne (by decide), List.count_eq_zero_of_not_mem ha]
    omega
  · exact closed_of_not_mem hmem

theorem Closing.join (h : Closing head) (h' : Closing tail) :
    Closing (head ++ ':' :: ':' :: tail) := by
  have htail : (':' :: ':' :: tail).count '<' = tail.count '<' ∧
      (':' :: ':' :: tail).count '>' = tail.count '>' := by simp
  intro hmem
  by_cases hhead : '<' ∈ head
  · have hlt := h hhead
    have hle := h'.closed
    rw [Closed] at hle
    rw [behind_append_of_mem hhead, List.count_append, List.count_append, htail.1, htail.2]
    omega
  · have hmem : '<' ∈ tail := by simpa [hhead] using hmem
    have hlt := h' hmem
    obtain ⟨a, b, rfl, ha⟩ := List.eq_append_cons_of_mem hmem
    have hfront : '<' ∉ head ++ ':' :: ':' :: a := by simp [hhead, ha]
    have hsplit : head ++ ':' :: ':' :: (a ++ '<' :: b) =
        (head ++ ':' :: ':' :: a) ++ '<' :: b := by simp
    rw [hsplit, behind_append_of_not_mem hfront]
    rwa [behind_append_of_not_mem ha] at hlt

theorem closing_specialization (h : '<' ∉ front) (hinner : Closed inner) :
    Closing (front ++ '<' :: (inner ++ ['>'])) := by
  intro _
  rw [Closed] at hinner
  rw [behind_append_of_not_mem h, List.count_append, List.count_append]
  simp
  omega

/-- A text that ends inside of the arguments of a query is not found anywhere. -/
theorem not_closing_among_arguments (h : '<' ∉ front) (hinner : ClosesAtMost 0 inner)
    (hrest : rest <+: inner) : ¬ Closing (front ++ '<' :: rest) := by
  intro hclosing
  have hlt := hclosing (by simp)
  rw [behind_append_of_not_mem h] at hlt
  have hle := hinner rest hrest
  omega

theorem separator_cases (h : head ++ ':' :: ':' :: tail = front ++ '<' :: (inner ++ ['>'])) :
    (∃ front', front = head ++ ':' :: ':' :: front' ∧ tail = front' ++ '<' :: (inner ++ ['>'])) ∨
      ∃ rest, rest <+: inner ∧ head = front ++ '<' :: rest := by
  obtain ⟨middle, hfront, hmiddle⟩ | ⟨middle, hhead, hmiddle⟩ := List.append_eq_append_iff.mp h
  · match middle with
    | [] => simp at hmiddle
    | [c] => simp at hmiddle
    | c :: d :: front' =>
      simp only [List.cons_append, List.cons.injEq] at hmiddle
      obtain ⟨rfl, rfl, rfl⟩ := hmiddle
      exact .inl ⟨front', hfront, rfl⟩
  · match middle with
    | [] => simp at hmiddle
    | c :: rest =>
      simp only [List.cons_append, List.cons.injEq] at hmiddle
      obtain ⟨rfl, hrest⟩ := hmiddle
      obtain ⟨more, -, hmore⟩ | ⟨more, hinner, -⟩ := List.append_eq_append_iff.mp hrest
      · have hlength := congrArg List.length hmore
        simp at hlength
        omega
      · exact .inr ⟨rest, ⟨more, hinner.symm⟩, hhead⟩

theorem closed_qualify {path name : String} (hp : Closed path.toList) (hn : Closed name.toList) :
    Closed (Path.qualify path name).toList := by
  unfold Path.qualify
  split
  · exact hn
  · rw [String.toList_append, String.toList_append]
    exact (hp.append (closed_of_not_mem (by decide))).append hn

theorem closed_render {spelling : TypeId → String} (h : ∀ id, Closed (spelling id).toList)
    (ty : TypeRef) : Closed (ty.render spelling).toList := by
  induction ty with
  | raw id => exact h id
  | pointer inner ih | reference inner ih =>
    rw [TypeRef.render, String.toList_append]
    exact ih.append (closed_of_not_mem (by decide))
  | const inner ih =>
    unfold TypeRef.render TypeRef.renderConst
    split
    · rw [String.toList_append]
      exact (closed_of_not_mem (by decide)).append ih
    · split
      · exact ih
      · rw [String.toList_append]
        exact ih.append (closed_of_not_mem (by decide))

theorem closed_intercalate {texts : List String} (h : ∀ text ∈ texts, Closed text.toList) :
    Closed (",".intercalate texts).toList := by
  induction texts with
  | nil => exact closed_of_not_mem (by simp)
  | cons first rest ih =>
    obtain ⟨hfirst, hrest⟩ := List.forall_mem_cons.mp h
    cases rest with
    | nil => simpa using hfirst
    | cons second rest =>
      rw [String.intercalate_cons_cons, String.toList_append, String.toList_append]
      exact (hfirst.append (closed_of_not_mem (by decide))).append (ih hrest)

end Template

end ApiModel
