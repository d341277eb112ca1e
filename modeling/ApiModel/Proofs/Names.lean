import ApiModel.TypeNode

/-!
Normal forms of names and the parts of paths: no part of a path has a separator of its own, so a
part that is declared as a name keeps its spelling. Every character of a part was written in the
name, but for the separators that stand for dots.
-/

namespace ApiModel

namespace Text

theorem dropEndWhile_eq_self {p : Char → Bool} {cs : List Char} (h : ∀ c ∈ cs, p c = false) :
    dropEndWhile p cs = cs := by
  induction cs with
  | nil => rfl
  | cons c cs ih =>
    have hcs : dropEndWhile p cs = cs := ih fun d hd => h d (List.mem_cons_of_mem c hd)
    cases cs with
    | nil => simp [dropEndWhile, h c]
    | cons d ds => rw [dropEndWhile, hcs]

theorem dropEndWhile_sublist (p : Char → Bool) (cs : List Char) :
    (dropEndWhile p cs).Sublist cs := by
  induction cs with
  | nil => exact .slnil
  | cons c cs ih =>
    cases hrest : dropEndWhile p cs with
    | nil =>
      simp only [dropEndWhile, hrest]
      split
      · exact List.nil_sublist _
      · exact (List.nil_sublist cs).cons_cons c
    | cons d ds =>
      simp only [dropEndWhile, hrest]
      exact (hrest ▸ ih).cons_cons c

theorem trim_sublist (cs : List Char) : (trim cs).Sublist cs :=
  (dropEndWhile_sublist _ _).trans (List.dropWhile_sublist _)

theorem trim_eq_self {cs : List Char} (h : ∀ c ∈ cs, isBlank c = false) : trim cs = cs := by
  have hs : trimStart cs = cs := by
    cases cs with
    | nil => rfl
    | cons c cs => simp [trimStart, h c]
  rw [trim, hs]
  exact dropEndWhile_eq_self h

theorem dropBlanks_eq_self {cs : List Char} (h : ∀ c ∈ cs, isBlank c = false) :
    dropBlanks cs = cs :=
  List.filter_eq_self.mpr fun c hc => by simp [h c hc]

end Text

namespace Name

theorem dotsToSeparators_eq_self {cs : List Char} (h : '.' ∉ cs) : dotsToSeparators cs = cs := by
  induction cs with
  | nil => rfl
  | cons c cs ih =>
    simp only [List.mem_cons, not_or] at h
    have hcs : dotsToSeparators cs = cs := ih h.2
    rw [dotsToSeparators] at hcs ⊢
    rw [List.flatMap_cons, hcs, if_neg (Ne.symm h.1), List.singleton_append]

theorem mem_dotsToSeparators {c : Char} {cs : List Char} (h : c ∈ dotsToSeparators cs) :
    c ≠ '.' ∧ (c ∈ cs ∨ c = ':') := by
  obtain ⟨d, hd, hc⟩ := List.mem_flatMap.mp h
  split at hc
  · obtain rfl : c = ':' := by simpa using hc
    exact ⟨by decide, .inr rfl⟩
  · next hdot =>
    obtain rfl := List.mem_singleton.mp hc
    exact ⟨hdot, .inl hd⟩

theorem hasSecondLine_eq_false {cs : List Char} (h : '\n' ∉ cs) : hasSecondLine cs = false := by
  induction cs with
  | nil => rfl
  | cons c cs ih =>
    simp only [List.mem_cons, not_or] at h
    simp [hasSecondLine, Ne.symm h.1, ih h.2]

/-- The text is a normal form: it is not empty, and has neither blanks nor dots. -/
structure IsNormal (text : String) : Prop where
  ne_empty : text ≠ ""
  not_blank : ∀ c ∈ text.toList, Text.isBlank c = false
  no_dot : '.' ∉ text.toList

theorem normalize_eq_self {text : String} (h : IsNormal text) : normalize text = .ok text := by
  have hline : '\n' ∉ text.toList := fun hm => by
    have hb := h.not_blank _ hm
    simp [Text.isBlank] at hb
  have hcs : Text.dropBlanks (dotsToSeparators (Text.trim text.toList)) = text.toList := by
    rw [Text.trim_eq_self h.not_blank, dotsToSeparators_eq_self h.no_dot,
      Text.dropBlanks_eq_self h.not_blank]
  have hne : text.toList ≠ [] := fun e => h.ne_empty (String.toList_eq_nil_iff.mp e)
  rw [normalize, hasSecondLine_eq_false hline, if_neg (by simp), hcs]
  split
  · next hnil => exact absurd hnil hne
  · rw [String.ofList_toList]

theorem normalize_eq_ok {text path : String} (h : normalize text = .ok path) :
    path.toList = Text.dropBlanks (dotsToSeparators (Text.trim text.toList)) ∧ path ≠ "" := by
  rw [normalize] at h
  split at h
  · cases h
  · split at h
    · cases h
    · next hne =>
      cases h
      exact ⟨String.toList_ofList, fun e => hne (by simpa using congrArg String.toList e)⟩

theorem isNormal_of_normalize {text path : String} (h : normalize text = .ok path) :
    IsNormal path := by
  obtain ⟨hcs, hne⟩ := normalize_eq_ok h
  refine ⟨hne, fun c hc => ?_, fun hc => ?_⟩
  · rw [hcs, Text.mem_dropBlanks] at hc
    exact hc.2
  · rw [hcs, Text.mem_dropBlanks] at hc
    exact (mem_dotsToSeparators hc.1).1 rfl

theorem mem_of_mem_normalize {text path : String} (h : normalize text = .ok path) {c : Char}
    (hc : c ∈ path.toList) : c ∈ text.toList ∨ c = ':' := by
  rw [(normalize_eq_ok h).1, Text.mem_dropBlanks] at hc
  exact (mem_dotsToSeparators hc.1).2.imp_left ((Text.trim_sublist _).subset ·)

end Name

namespace Path

theorem consPart_eq_cons {c : Char} {parts : List (List Char)} (h : parts ≠ []) :
    ∃ part rest, parts = part :: rest ∧ consPart c parts = (c :: part) :: rest := by
  cases parts with
  | nil => exact absurd rfl h
  | cons part rest => exact ⟨part, rest, rfl, rfl⟩

theorem prefix_of_cutAll {depth : Int} {cs part : List Char} {rest : List (List Char)}
    (h : cutAll depth cs = part :: rest) : part <+: cs := by
  fun_induction cutAll depth cs generalizing part rest with
  | case1 =>
    cases h
    exact List.nil_prefix
  | case2 depth cs hd ih =>
    obtain ⟨p, ps, hp, hc⟩ := consPart_eq_cons (c := ':') (cutAll_ne_nil depth cs)
    rw [hc] at h
    cases h
    simpa using ih hp
  | case3 depth c cs hc ih =>
    obtain ⟨p, ps, hp, hc⟩ := consPart_eq_cons (c := c) (cutAll_ne_nil (depth + bracketStep c) cs)
    rw [hc] at h
    cases h
    simpa using ih hp
  | case4 =>
    cases h
    exact List.nil_prefix

theorem cutLast_of_cutAll {depth : Int} {cs part : List Char} {rest : List (List Char)}
    (h : cutAll depth cs = part :: rest) :
    cutLast depth part = none ∧ ∀ part' ∈ rest, cutLast 0 part' = none := by
  fun_induction cutAll depth cs generalizing part rest with
  | case1 cs ih =>
    cases h
    obtain ⟨p, ps, hp⟩ := List.exists_cons_of_ne_nil (cutAll_ne_nil 0 cs)
    rw [hp]
    exact ⟨rfl, List.forall_mem_cons.mpr (ih hp)⟩
  | case2 depth cs hd ih =>
    obtain ⟨p, ps, hp, hc⟩ := consPart_eq_cons (c := ':') (cutAll_ne_nil depth cs)
    rw [hc] at h
    cases h
    obtain ⟨hfirst, hrest⟩ := ih hp
    refine ⟨?_, hrest⟩
    rw [cutLast, hfirst]
    simp [hd]
  | case3 depth c cs hcs ih =>
    obtain ⟨p, ps, hp, hc⟩ := consPart_eq_cons (c := c) (cutAll_ne_nil (depth + bracketStep c) cs)
    rw [hc] at h
    cases h
    obtain ⟨hfirst, hrest⟩ := ih hp
    refine ⟨?_, hrest⟩
    rw [cutLast, hfirst]
    · rfl
    -- the part begins as the text does, so it does not begin with a separator either
    · rintro p' rfl rfl
      obtain ⟨tail, rfl⟩ := prefix_of_cutAll hp
      exact hcs _ rfl rfl
  | case4 =>
    cases h
    exact ⟨rfl, by simp⟩

theorem cutAll_subset {depth : Int} {cs part : List Char} (h : part ∈ cutAll depth cs) :
    part ⊆ cs := by
  fun_induction cutAll depth cs generalizing part with
  | case1 cs ih =>
    obtain rfl | h := List.mem_cons.mp h
    · simp
    · exact fun c hc => List.mem_cons_of_mem _ (List.mem_cons_of_mem _ (ih h hc))
  | case2 depth cs hd ih =>
    obtain ⟨p, ps, hp, hc⟩ := consPart_eq_cons (c := ':') (cutAll_ne_nil depth cs)
    rw [hc] at h
    obtain rfl | h := List.mem_cons.mp h
    · exact List.cons_subset_cons _ (List.cons_subset_cons _ (ih (hp ▸ List.mem_cons_self)))
    · exact fun c hc => List.mem_cons_of_mem _
        (List.mem_cons_of_mem _ (ih (hp ▸ List.mem_cons_of_mem _ h) hc))
  | case3 depth c cs hcs ih =>
    obtain ⟨p, ps, hp, hc⟩ := consPart_eq_cons (c := c) (cutAll_ne_nil (depth + bracketStep c) cs)
    rw [hc] at h
    obtain rfl | h := List.mem_cons.mp h
    · exact List.cons_subset_cons _ (ih (hp ▸ List.mem_cons_self))
    · exact fun c hc => List.mem_cons_of_mem _ (ih (hp ▸ List.mem_cons_of_mem _ h) hc)
  | case4 => simp_all

theorem cutLast_eq_some {depth : Int} {cs init last : List Char}
    (h : cutLast depth cs = some (init, last)) : cs = init ++ ':' :: ':' :: last := by
  fun_induction cutLast depth cs generalizing init last with
  | case1 depth cs i l hi ih =>
    cases h
    rw [ih hi]
    rfl
  | case2 cs hn ih =>
    cases h
    rfl
  | case3 => cases h
  | case4 depth c cs hcs ih =>
    obtain ⟨⟨i, l⟩, hi, hil⟩ := Option.map_eq_some_iff.mp h
    cases hil
    rw [ih hi]
    rfl
  | case5 => cases h

theorem consPart_append (c : Char) {parts : List (List Char)} (h : parts ≠ [])
    (parts' : List (List Char)) : consPart c (parts ++ parts') = consPart c parts ++ parts' := by
  obtain ⟨part, rest, rfl, hc⟩ := consPart_eq_cons (c := c) h
  rw [hc]
  rfl

theorem cutAll_of_cutLast_eq_none {depth : Int} {cs : List Char} (h : cutLast depth cs = none) :
    cutAll depth cs = [cs] := by
  fun_induction cutLast depth cs with
  | case1 => cases h
  | case2 => cases h
  | case3 depth cs hn hd ih => rw [cutAll, if_neg hd, ih hn, consPart, consPart]
  | case4 depth c cs hcs ih =>
    rw [cutAll, ih (Option.map_eq_none_iff.mp h), consPart]
    exact hcs
  | case5 => rfl

/-- The parts in front of the last separator are those of the text in front of it. -/
theorem cutAll_of_cutLast_eq_some {depth : Int} {cs init last : List Char}
    (h : cutLast depth cs = some (init, last)) :
    cutAll depth cs = cutAll depth init ++ [last] := by
  fun_induction cutLast depth cs generalizing init last with
  | case1 depth cs i l hi ih =>
    cases h
    rw [cutAll, cutAll]
    split
    · next hd =>
      subst hd
      rw [ih hi, List.cons_append]
    · have hne : consPart ':' (cutAll depth i) ≠ [] := by
        obtain ⟨p, ps, -, hc⟩ := consPart_eq_cons (c := ':') (cutAll_ne_nil depth i)
        simp [hc]
      rw [ih hi, consPart_append _ (cutAll_ne_nil depth i), consPart_append _ hne]
  | case2 cs hn ih =>
    cases h
    rw [cutAll, if_pos rfl, cutAll_of_cutLast_eq_none hn]
    rfl
  | case3 => cases h
  | case4 depth c cs hcs ih =>
    obtain ⟨⟨i, l⟩, hi, hil⟩ := Option.map_eq_some_iff.mp h
    cases hil
    rw [cutAll, ih hi, consPart_append _ (cutAll_ne_nil _ i), cutAll]
    -- the text in front begins as the whole does, so neither begins with a separator
    · rintro i' rfl rfl
      exact hcs _ rfl (by rw [cutLast_eq_some hi]; rfl)
    · exact hcs
  | case5 => cases h

theorem cutLast_of_mem_components {part path : String} (h : part ∈ components path) :
    cutLast 0 part.toList = none := by
  obtain ⟨cs, hcs, rfl⟩ := List.mem_map.mp h
  obtain ⟨p, ps, hp⟩ := List.exists_cons_of_ne_nil (cutAll_ne_nil 0 path.toList)
  obtain ⟨hfirst, hrest⟩ := cutLast_of_cutAll hp
  rw [String.toList_ofList]
  rw [hp] at hcs
  obtain rfl | hcs := List.mem_cons.mp hcs
  · exact hfirst
  · exact hrest cs hcs

theorem baseName_mem_components (path : String) : baseName path ∈ components path := by
  rw [baseName, components]
  split
  · next h =>
    rw [cutAll_of_cutLast_eq_some h]
    simp
  · next h =>
    rw [cutAll_of_cutLast_eq_none h]
    simp

theorem components_parent_subset {path : String} (hne : parent path ≠ "") :
    components (parent path) ⊆ components path := by
  rw [parent] at hne ⊢
  split
  · next h =>
    rw [components, components, cutAll_of_cutLast_eq_some h, String.toList_ofList, List.map_append]
    exact List.subset_append_left _ _
  · next h => simp [h] at hne

theorem components_subset {part path : String} (h : part ∈ components path) :
    part.toList ⊆ path.toList := by
  obtain ⟨cs, hcs, rfl⟩ := List.mem_map.mp h
  simpa using cutAll_subset hcs

theorem baseName_subset (path : String) : (baseName path).toList ⊆ path.toList := by
  unfold baseName
  split
  · next init last h =>
    rw [cutLast_eq_some h, String.toList_ofList]
    exact fun c hc =>
      List.mem_append_right init (List.mem_cons_of_mem _ (List.mem_cons_of_mem _ hc))
  · exact List.Subset.refl _

theorem parent_subset (path : String) : (parent path).toList ⊆ path.toList := by
  unfold parent
  split
  · next h => simp [cutLast_eq_some h]
  · simp

end Path

namespace Name

/-- The name stands for itself: it is a normal form, and no separator divides it. -/
structure IsSingle (name : String) : Prop extends IsNormal name where
  undivided : Path.cutLast 0 name.toList = none

/-- The name has no empty part, if it can be declared at all. -/
def IsWhole (name : String) : Prop :=
  ∀ path, normalize name = .ok path → "" ∉ Path.components path

theorem IsNormal.isSingle_of_mem_components {part path : String} (h : IsNormal path)
    (hp : part ∈ Path.components path) (hne : part ≠ "") : IsSingle part where
  ne_empty := hne
  not_blank c hc := h.not_blank c (Path.components_subset hp hc)
  no_dot hc := h.no_dot (Path.components_subset hp hc)
  undivided := Path.cutLast_of_mem_components hp

namespace IsSingle

variable {name : String}

theorem ofName (h : IsSingle name) : Entity.ofName name = .ok { name } := by
  rw [Entity.ofName, normalize_eq_self h.toIsNormal]
  simp [bind, Except.bind, pure, Except.pure, Path.baseName, Path.parent, h.undivided]

/-- Characters in front of it that mean nothing in paths do not divide it. -/
theorem prepend {front : String} (h : IsSingle name)
    (hf : (front.toList.all fun c =>
      !Text.isBlank c && !(['.', ':', '<', '>'].contains c)) = true) :
    IsSingle (front ++ name) := by
  have hplain : ∀ c ∈ front.toList, Text.isBlank c = false ∧ c ∉ ['.', ':', '<', '>'] := by
    intro c hc
    simpa only [Bool.and_eq_true, Bool.not_eq_true', List.contains_eq_mem, decide_eq_false_iff_not]
      using List.all_eq_true.mp hf c hc
  have hcut : ∀ front : List Char, (∀ c ∈ front, c ∉ ['.', ':', '<', '>']) →
      Path.cutLast 0 (front ++ name.toList) = none := by
    intro front hfront
    induction front with
    | nil => exact h.undivided
    | cons c front ih =>
      obtain ⟨hc, hrest⟩ := List.forall_mem_cons.mp hfront
      simp only [List.mem_cons, List.not_mem_nil, or_false, not_or] at hc
      have hstep : (0 : Int) + Path.bracketStep c = 0 := by simp [Path.bracketStep, hc]
      rw [List.cons_append, Path.cutLast, hstep, ih hrest]
      · rfl
      · rintro cs rfl
        exact absurd rfl hc.2.1
  have hmem : ∀ c ∈ (front ++ name).toList, c ∈ front.toList ∨ c ∈ name.toList := fun c hc =>
    List.mem_append.mp (String.toList_append ▸ hc)
  refine ⟨⟨fun he => ?_, fun c hc => ?_, fun hc => ?_⟩, ?_⟩
  · have hlength := congrArg String.toList he
    rw [String.toList_append] at hlength
    exact h.ne_empty (String.toList_eq_nil_iff.mp (List.append_eq_nil_iff.mp hlength).2)
  · rcases hmem c hc with hc | hc
    · exact (hplain c hc).1
    · exact h.not_blank c hc
  · rcases hmem _ hc with hc | hc
    · exact (hplain _ hc).2 (by simp)
    · exact h.no_dot hc
  · rw [String.toList_append]
    exact hcut _ fun c hc => (hplain c hc).2

end IsSingle

end Name

theorem Entity.ofName_of_mem_components {part path : String} (h : Name.IsNormal path)
    (hp : part ∈ Path.components path) (hne : part ≠ "") :
    Entity.ofName part = .ok { name := part } := (h.isSingle_of_mem_components hp hne).ofName

theorem Entity.ofName_eq_ok {name : String} {e : Entity} (h : ofName name = .ok e) :
    ∃ path, Name.normalize name = .ok path ∧
      e = { name := Path.baseName path, scopePath := Path.parent path } := by
  unfold ofName at h
  cases hn : Name.normalize name with
  | error failure => simp [hn, bind, Except.bind] at h
  | ok path =>
    simp only [hn, bind, Except.bind, pure, Except.pure, Except.ok.injEq] at h
    exact ⟨path, rfl, h.symm⟩

theorem TypeNode.ofName_eq_ok {name : String} {kind : TypeKind} {node : TypeNode}
    (h : ofName name kind = .ok node) :
    ∃ e, Entity.ofName name = .ok e ∧ node = { entity := e, kind } := by
  unfold ofName at h
  cases he : Entity.ofName name with
  | error failure => simp [he, bind, Except.bind] at h
  | ok e =>
    simp only [he, bind, Except.bind, pure, Except.pure, Except.ok.injEq] at h
    exact ⟨e, rfl, h.symm⟩

theorem Entity.ofName_of_isWhole {name : String} {e : Entity} (hw : Name.IsWhole name)
    (h : ofName name = .ok e) : Name.IsSingle e.name ∧ Name.IsWhole e.scopePath := by
  obtain ⟨path, hn, rfl⟩ := ofName_eq_ok h
  have hnormal := Name.isNormal_of_normalize hn
  constructor
  · have hmem := Path.baseName_mem_components path
    exact hnormal.isSingle_of_mem_components hmem fun he => hw path hn (he ▸ hmem)
  · intro front hfront hmem
    have hne : Path.parent path ≠ "" := fun he => by
      rw [show Path.parent path = "" from he] at hfront
      cases hfront
    have hparent : Name.IsNormal (Path.parent path) :=
      ⟨hne, fun c hc => hnormal.not_blank c (Path.parent_subset path hc),
        fun hc => hnormal.no_dot (Path.parent_subset path hc)⟩
    obtain rfl : Path.parent path = front :=
      Except.ok.inj ((Name.normalize_eq_self hparent).symm.trans hfront)
    exact hw path hn (Path.components_parent_subset hne hmem)

end ApiModel
