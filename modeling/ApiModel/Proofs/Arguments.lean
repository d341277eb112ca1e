import ApiModel.Proofs.Printing

/-!
Template arguments. A text in which brackets are closed in order, and commas stand inside of
brackets only, is read back as it is between the brackets of a template or the commas there, also
when there are consts around the name in it, which queries lose.
-/

namespace ApiModel

namespace Template

variable {text rest : List Char} {depth depth' : Nat} {c : Char}

/-- How many brackets are open behind a text that begins at the given depth; none if a bracket is
closed that was not open, or a comma stands outside of all. -/
def depthBehind : Nat → List Char → Option Nat
  | depth, [] => some depth
  | depth, '<' :: cs => depthBehind (depth + 1) cs
  | 0, '>' :: _ => none
  | depth + 1, '>' :: cs => depthBehind depth cs
  | 0, ',' :: _ => none
  | depth, _ :: cs => depthBehind depth cs

/-- The text can stand between template brackets as one argument. -/
structure IsArgument (text : List Char) : Prop where
  ne_nil : text ≠ []
  depth : depthBehind 0 text = some 0

instance (text : List Char) : Decidable (IsArgument text) :=
  decidable_of_iff (text ≠ [] ∧ depthBehind 0 text = some 0)
    ⟨fun h => ⟨h.1, h.2⟩, fun h => ⟨h.ne_nil, h.depth⟩⟩

theorem depthBehind_of_plain (h : c ∉ ['<', '>', ',']) (depth : Nat) (cs : List Char) :
    depthBehind depth (c :: cs) = depthBehind depth cs := by
  simp only [List.mem_cons, List.not_mem_nil, or_false, not_or] at h
  cases depth <;> simp [depthBehind, h]

theorem depthBehind_append (text rest : List Char) (depth : Nat) :
    depthBehind depth (text ++ rest) = (depthBehind depth text).bind (depthBehind · rest) := by
  fun_induction depthBehind depth text <;> simp_all [depthBehind]

theorem depthBehind_markers (h : ∀ c ∈ text, TypeQuery.isMarker c = true) (depth : Nat) :
    depthBehind depth text = some depth := by
  induction text with
  | nil => cases depth <;> rfl
  | cons c text ih =>
    obtain ⟨hc, hrest⟩ := List.forall_mem_cons.mp h
    rw [depthBehind_of_plain, ih hrest]
    obtain rfl | rfl := TypeQuery.isMarker_iff.mp hc
    all_goals decide

theorem IsArgument.append_markers (h : IsArgument text) {markers : List Char}
    (hm : ∀ c ∈ markers, TypeQuery.isMarker c = true) : IsArgument (text ++ markers) where
  ne_nil := by simp [h.ne_nil]
  depth := by rw [depthBehind_append, h.depth, Option.bind_some, depthBehind_markers hm]

/-- All commas stand inside of brackets, if `depth` of these are open before the text. -/
def CommasInside (depth : Nat) (text : List Char) : Prop :=
  ∀ front rest, text = front ++ ',' :: rest → depth + front.count '<' ≠ front.count '>'

theorem commasInside_cons_iff (hc : depth + [c].count '<' = depth' + [c].count '>') :
    CommasInside depth (c :: text) ↔ ¬ (c = ',' ∧ depth = 0) ∧ CommasInside depth' text := by
  have hcount : ∀ d, ∀ front : List Char, (c :: front).count d = [c].count d + front.count d :=
    fun d front => by rw [← List.count_append, List.singleton_append]
  constructor
  · refine fun h => ⟨?_, fun front rest he => ?_⟩
    · rintro ⟨rfl, rfl⟩
      exact h [] text rfl rfl
    · have hne := h (c :: front) rest (by rw [he, List.cons_append])
      rw [hcount '<' front, hcount '>' front] at hne
      omega
  · rintro ⟨hfirst, h⟩ (_ | ⟨d, front⟩) rest he
    · obtain ⟨rfl, rfl⟩ := List.cons.inj he
      simpa using hfirst
    · obtain ⟨rfl, rfl⟩ := List.cons.inj he
      have hne := h front rest rfl
      rw [hcount '<' front, hcount '>' front]
      omega

/-- A depth is told for the texts that close only what is open and have all commas in brackets. -/
theorem depthBehind_eq_some_iff : depthBehind depth text = some depth' ↔
    ClosesAtMost depth text ∧ CommasInside depth text ∧
      depth + text.count '<' = depth' + text.count '>' := by
  fun_induction depthBehind depth text with
  | case1 depth => simp [closesAtMost_nil, CommasInside]
  | case2 depth cs ih =>
    have hstep : depth + ['<'].count '<' = depth + 1 + ['<'].count '>' := by simp
    rw [ih, closesAtMost_cons_iff hstep, commasInside_cons_iff hstep, List.count_cons_self,
      List.count_cons_of_ne (by decide)]
    simp [Nat.add_right_comm, Nat.add_assoc]
  | case3 cs => simp [not_closesAtMost_closing]
  | case4 depth cs ih =>
    have hstep : depth + 1 + ['>'].count '<' = depth + ['>'].count '>' := by simp
    rw [ih, closesAtMost_cons_iff hstep, commasInside_cons_iff hstep, List.count_cons_self,
      List.count_cons_of_ne (by decide)]
    simp [Nat.add_right_comm, ← Nat.add_assoc]
  | case5 cs =>
    have hstep : 0 + [','].count '<' = 0 + [','].count '>' := by simp
    simp [commasInside_cons_iff hstep]
  | case6 depth c cs hopen hclose hclose' hcomma ih =>
    have hc : c ≠ '>' := by
      cases depth with
      | zero => exact hclose rfl
      | succ depth => exact hclose' depth rfl
    have hstep : depth + [c].count '<' = depth + [c].count '>' := by
      simp [show c ≠ '<' from hopen, hc]
    have hfirst : ¬ (c = ',' ∧ depth = 0) := fun h => hcomma h.2 h.1
    rw [ih, closesAtMost_cons_iff hstep, commasInside_cons_iff hstep,
      List.count_cons_of_ne hopen, List.count_cons_of_ne hc]
    simp [hfirst]

theorem ClosesAtMost.append {front rest : List Char} (h : ClosesAtMost depth front)
    (h' : ClosesAtMost depth' rest)
    (hd : depth' + front.count '>' ≤ depth + front.count '<') :
    ClosesAtMost depth (front ++ rest) := by
  intro part hpart
  obtain hpart | hfront :=
    List.prefix_or_prefix_of_prefix hpart (List.prefix_append front rest)
  · exact h part hpart
  · obtain ⟨part, rfl⟩ := hfront
    have hle := h' part ((List.prefix_append_right_inj front).mp hpart)
    rw [List.count_append, List.count_append]
    omega

namespace Balanced

theorem append {front rest : List Char} (h : Balanced front) (h' : Balanced rest) :
    Balanced (front ++ rest) where
  closes := h.closes.append h'.closes (by rw [h.count_eq])
  count_eq := by rw [List.count_append, List.count_append, h.count_eq, h'.count_eq]

theorem comma : Balanced [','] := ⟨(closesAtMost_nil 0).cons (by decide), by decide⟩

theorem intercalate {texts : List (List Char)} (h : ∀ text ∈ texts, Balanced text) :
    Balanced ([','].intercalate texts) := by
  induction texts with
  | nil => exact ⟨closesAtMost_nil 0, rfl⟩
  | cons first texts ih =>
    obtain ⟨hfirst, hrest⟩ := List.forall_mem_cons.mp h
    cases texts with
    | nil => rwa [List.intercalate_singleton]
    | cons second texts =>
      rw [List.intercalate_cons_cons]
      exact (hfirst.append comma).append (ih hrest)

end Balanced

theorem IsArgument.balanced (h : IsArgument text) : Balanced text := by
  obtain ⟨hcloses, -, hcount⟩ := depthBehind_eq_some_iff.mp h.depth
  exact ⟨hcloses, by omega⟩

theorem cutArguments_append (h : depthBehind depth text = some depth') :
    cutArguments depth (text ++ rest) =
      text.foldr Path.consPart (cutArguments depth' rest) := by
  fun_induction depthBehind depth text with
  | case1 => simp_all
  | case2 depth cs ih => simpa [cutArguments, Path.bracketStep] using congrArg _ (ih h)
  | case3 | case5 => cases h
  | case4 depth cs ih =>
    have hdepth : (depth : Int) + 1 + -1 = depth := by omega
    simp [cutArguments, Path.bracketStep, hdepth, ih h]
  | case6 depth c cs hopen hclose hclose' hcomma ih =>
    have hc : c ≠ '>' := by
      cases depth with
      | zero => exact hclose rfl
      | succ depth => exact hclose' depth rfl
    have hstep : Path.bracketStep c = 0 := by rw [Path.bracketStep, if_neg hopen, if_neg hc]
    have hpiece : ¬ (c = ',' ∧ (depth : Int) = 0) := fun h =>
      hcomma (by exact_mod_cast h.2) h.1
    rw [List.cons_append, cutArguments, if_neg hpiece, hstep, Int.add_zero, ih h]
    rfl

theorem foldr_consPart (text last : List Char) (rest : List (List Char)) :
    text.foldr Path.consPart (last :: rest) = (text ++ last) :: rest := by
  induction text with
  | nil => rfl
  | cons c text ih => rw [List.foldr_cons, ih]; rfl

theorem cutArguments_intercalate {texts : List (List Char)} (hne : texts ≠ [])
    (h : ∀ text ∈ texts, depthBehind 0 text = some 0) :
    cutArguments 0 ([','].intercalate texts) = texts := by
  induction texts with
  | nil => exact absurd rfl hne
  | cons first texts ih =>
    obtain ⟨hfirst, hrest⟩ := List.forall_mem_cons.mp h
    cases texts with
    | nil =>
      have happend : cutArguments 0 (first ++ []) = first.foldr Path.consPart [[]] :=
        cutArguments_append hfirst
      rw [foldr_consPart, List.append_nil] at happend
      rwa [List.intercalate_singleton]
    | cons second texts =>
      have hcomma : cutArguments 0 (',' :: [','].intercalate (second :: texts)) =
          [] :: second :: texts := by
        rw [cutArguments, if_pos ⟨rfl, rfl⟩, ih (by simp) hrest]
      have happend : cutArguments 0 (first ++ ',' :: [','].intercalate (second :: texts)) =
          first.foldr Path.consPart (cutArguments 0 (',' :: [','].intercalate (second :: texts))) :=
        cutArguments_append hfirst
      rw [hcomma, foldr_consPart, List.append_nil] at happend
      rwa [List.intercalate_cons_cons, List.append_assoc]

theorem arguments_intercalate {texts : List (List Char)} (h : ∀ text ∈ texts, IsArgument text)
    (ht : ∀ text ∈ texts, Text.trim text = text) :
    arguments ([','].intercalate texts) = texts := by
  by_cases hnil : texts = []
  · subst hnil
    rfl
  · rw [arguments, cutArguments_intercalate hnil fun text hm => (h text hm).depth,
      List.map_congr_left ht, List.map_id', List.filter_eq_self]
    exact fun text hm => by simpa using (h text hm).ne_nil

theorem split?_intercalate {base : String} {texts : List String} (hne : base ≠ "")
    (hbase : '<' ∉ base.toList) (h : ∀ text ∈ texts, IsArgument text.toList)
    (ht : ∀ text ∈ texts, Text.trim text.toList = text.toList) :
    split? (base ++ "<" ++ ",".intercalate texts ++ ">") = some (base, texts) := by
  have hname : (base ++ "<" ++ ",".intercalate texts ++ ">").toList =
      base.toList ++ '<' :: ([','].intercalate (texts.map String.toList) ++ ['>']) := by
    simp [String.toList_append]
  have hcut : cut? (base ++ "<" ++ ",".intercalate texts ++ ">").toList =
      some (base.toList, [','].intercalate (texts.map String.toList)) := by
    refine cut?_eq_some_iff.mpr ⟨hname, ?_, hbase, .intercalate ?_⟩
    · exact fun he => hne (String.toList_eq_nil_iff.mp he)
    · exact List.forall_mem_map.mpr fun text hm => (h text hm).balanced
  have hread : arguments ([','].intercalate (texts.map String.toList)) =
      texts.map String.toList :=
    arguments_intercalate (List.forall_mem_map.mpr h) (List.forall_mem_map.mpr ht)
  rw [split?, hcut]
  simp [hread, Function.comp_def]

theorem split?_eq {base text : String} (hne : base ≠ "") (hbase : '<' ∉ base.toList)
    (h : IsArgument text.toList) (ht : Text.trim text.toList = text.toList) :
    split? (base ++ "<" ++ text ++ ">") = some (base, [text]) := by
  have hsplit : split? (base ++ "<" ++ ",".intercalate [text] ++ ">") = some (base, [text]) :=
    split?_intercalate hne hbase (by simpa using h) (by simpa using ht)
  rwa [String.intercalate_singleton] at hsplit

end Template

namespace TypeRef

@[simp] theorem base_withoutConst (ty : TypeRef) : ty.withoutConst.base = ty.base := by
  induction ty with
  | raw => rfl
  | _ inner ih => exact ih

@[simp] theorem markers_withoutConst (ty : TypeRef) : ty.withoutConst.markers = ty.markers := by
  induction ty with
  | raw => rfl
  | const inner ih => exact ih
  | _ inner ih => rw [withoutConst, markers, markers, ih]

theorem unstacked_withoutConst (ty : TypeRef) : ty.withoutConst.Unstacked := by
  induction ty with
  | raw => trivial
  | _ inner ih => exact ih

theorem isConst_withoutConst (ty : TypeRef) : ty.withoutConst.isConst = false := by
  induction ty with
  | raw => rfl
  | _ inner ih => exact ih

theorem withoutConst_eq_self_iff {ty : TypeRef} : ty.withoutConst = ty ↔ ty.isConst = false := by
  refine ⟨fun h => h ▸ isConst_withoutConst ty, fun h => ?_⟩
  induction ty with
  | raw => rfl
  | const inner => cases h
  | pointer inner ih | reference inner ih => rw [withoutConst, ih h]

theorem render_withoutConst (spelling : TypeId → String) (ty : TypeRef) :
    ty.withoutConst.render spelling = spelling ty.base ++ String.ofList ty.markers := by
  induction ty with
  | raw => simp [withoutConst, render, markers, base]
  | const inner ih => exact ih
  | pointer inner ih | reference inner ih =>
    rw [withoutConst, render, ih, base, markers, String.ofList_append, String.append_assoc]

end TypeRef

theorem Spells.enclosed {name markers text : List Char} {base : String}
    (hb : Name.IsPlainQuery base) (h : Spells name markers text) :
    Spells (base.toList ++ '<' :: (name ++ markers ++ ['>'])) []
      (base.toList ++ '<' :: (text ++ ['>'])) := by
  have hne : base.toList ≠ [] := fun he => hb.ne_empty (String.toList_eq_nil_iff.mp he)
  have hremoved : Text.removeConst (base.toList ++ '<' :: (text ++ ['>'])) =
      base.toList ++ '<' :: (Text.removeConst text ++ ['>']) := by
    rw [Text.removeConst_append_cons (by decide), Text.removeConst_append_cons (by decide),
      hb.no_const, Text.removeConst_nil]
  have hbase := Spells.of_isPlainQuery hb
  have hchain := hbase.chain
  rw [hb.no_const] at hchain
  refine ⟨by simp, fun c hc => ?_, fun c hc => ?_, ?_, ?_, ?_⟩
  · rw [List.head?_append_of_ne_nil _ hne] at hc
    exact hbase.first c hc
  · obtain rfl : '>' = c := by simpa [List.getLast?_cons] using hc
    decide
  · simp [hb.no_dot, h.no_dot]
  · rw [hremoved, List.isChain_append, List.isChain_cons, List.isChain_append]
    refine ⟨hchain, ⟨by simp, h.chain, List.isChain_singleton _, ?_⟩, ?_⟩ <;> simp
  · have hopen : Text.dropBlanks ['<'] = ['<'] := by decide
    have hclose : Text.dropBlanks ['>'] = ['>'] := by decide
    rw [hremoved, ← List.singleton_append, Text.dropBlanks_append, Text.dropBlanks_append,
      Text.dropBlanks_append, Text.dropBlanks_eq_self hb.not_blank, h.read, hopen, hclose]
    simp

end ApiModel
