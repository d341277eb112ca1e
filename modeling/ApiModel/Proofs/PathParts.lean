import ApiModel.Proofs.Searching

/-!
The parts of paths. A path that is split at its first separator again and again comes apart into the
same parts as when it is cut at all separators at once, and the last separator stands in front of
the last of them. So the ways to split a path agree, whatever brackets it has; and the full name of
what was declared, declared again, has the same parts.
-/

namespace ApiModel

namespace Path

variable {depth : Int} {cs head tail : List Char} {name : String} {parts : List String}

theorem cutFirst_eq_none (h : cutLast depth cs = none) : cutFirst depth cs = none := by
  fun_induction cutLast depth cs with
  | case1 => cases h
  | case2 => cases h
  | case3 depth cs _ hd ih => rw [cutFirst, if_neg hd, ih ‹_›, Option.map_none]
  | case4 depth c cs hc ih =>
    rw [cutFirst, ih (Option.map_eq_none_iff.mp h), Option.map_none]
    exact hc
  | case5 => rfl

theorem splitFirst?_eq_none (h : cutLast 0 name.toList = none) : splitFirst? name = none := by
  rw [splitFirst?, cutFirst_eq_none h, Option.map_none]

theorem cutAll_of_cutFirst_eq_none (h : cutFirst depth cs = none) : cutAll depth cs = [cs] := by
  fun_induction cutFirst depth cs with
  | case1 => cases h
  | case2 depth cs hd ih =>
    rw [cutAll, if_neg hd, ih (Option.map_eq_none_iff.mp h), consPart, consPart]
  | case3 depth c cs hcs ih =>
    rw [cutAll, ih (Option.map_eq_none_iff.mp h), consPart]
    exact hcs
  | case4 => rfl

/-- The parts are what stands in front of the first separator, and the parts of what follows it. -/
theorem cutAll_of_cutFirst_eq_some (h : cutFirst depth cs = some (head, tail)) :
    cutAll depth cs = head :: cutAll 0 tail := by
  fun_induction cutFirst depth cs generalizing head tail with
  | case1 cs =>
    cases h
    rw [cutAll, if_pos rfl]
  | case2 depth cs hd ih =>
    obtain ⟨⟨head, tail⟩, hcut, he⟩ := Option.map_eq_some_iff.mp h
    cases he
    rw [cutAll, if_neg hd, ih hcut, consPart, consPart]
  | case3 depth c cs hcs ih =>
    obtain ⟨⟨head, tail⟩, hcut, he⟩ := Option.map_eq_some_iff.mp h
    cases he
    rw [cutAll, ih hcut, consPart]
    exact hcs
  | case4 => cases h

theorem depth_of_cutFirst (h : cutFirst depth cs = some (head, tail)) :
    depth + head.count '<' - head.count '>' = 0 := by
  fun_induction cutFirst depth cs generalizing head tail with
  | case1 cs =>
    cases h
    rfl
  | case2 depth cs hd ih =>
    obtain ⟨⟨head, tail⟩, hcut, he⟩ := Option.map_eq_some_iff.mp h
    cases he
    simpa using ih hcut
  | case3 depth c cs hcs ih =>
    obtain ⟨⟨head, tail⟩, hcut, he⟩ := Option.map_eq_some_iff.mp h
    cases he
    rw [← depth_cons]
    exact ih hcut
  | case4 => cases h

inductive SplitsInto : String → List String → Prop
  | last {name : String} (whole : splitFirst? name = none) : SplitsInto name [name]
  | part {name head tail : String} {parts : List String}
      (cut : splitFirst? name = some (head, tail)) (behind : SplitsInto tail parts) :
      SplitsInto name (head :: parts)

theorem components_of_splitFirst?_eq_none (h : splitFirst? name = none) :
    components name = [name] := by
  rw [components, cutAll_of_cutFirst_eq_none (Option.map_eq_none_iff.mp h)]
  simp

theorem components_of_splitFirst?_eq_some {head tail : String}
    (h : splitFirst? name = some (head, tail)) : components name = head :: components tail := by
  obtain ⟨⟨head, tail⟩, hcut, he⟩ := Option.map_eq_some_iff.mp h
  cases he
  rw [components, cutAll_of_cutFirst_eq_some hcut, components, String.toList_ofList, List.map_cons]

theorem splitFirst?_head {head tail : String}
    (h : splitFirst? name = some (head, tail)) : splitFirst? head = none := by
  have hmem : head ∈ components name := by
    rw [components_of_splitFirst?_eq_some h]
    exact List.mem_cons_self
  exact splitFirst?_eq_none (cutLast_of_mem_components hmem)

theorem splitsInto_iff : SplitsInto name parts ↔ parts = components name := by
  constructor
  · intro h
    induction h with
    | last whole => rw [components_of_splitFirst?_eq_none whole]
    | part cut _ ih => rw [components_of_splitFirst?_eq_some cut, ih]
  · -- what follows a separator is shorter than the path
    rintro rfl
    induction hn : name.length using Nat.strong_induction_on generalizing name with
    | _ n ih =>
    cases hcut : splitFirst? name with
    | none =>
      rw [components_of_splitFirst?_eq_none hcut]
      exact .last hcut
    | some halves =>
      obtain ⟨head, tail⟩ := halves
      have hlength := length_of_splitFirst? hcut
      rw [components_of_splitFirst?_eq_some hcut]
      exact .part hcut (ih tail.length (by omega) rfl)

/-- No separator stands outside of brackets in the text. -/
def Undivided (part : String) : Prop :=
  ∀ front rest, part.toList = front ++ ':' :: ':' :: rest → front.count '<' ≠ front.count '>'

theorem depth_ne_zero_of_cutLast_eq_none (h : cutLast depth cs = none) {front rest : List Char}
    (hcs : cs = front ++ ':' :: ':' :: rest) :
    depth + front.count '<' - front.count '>' ≠ 0 := by
  fun_induction cutLast depth cs generalizing front with
  | case1 => cases h
  | case2 => cases h
  | case3 depth cs hn hd ih =>
    obtain _ | ⟨d, _ | ⟨e, front⟩⟩ := front
    · simpa using hd
    · obtain ⟨rfl, -⟩ := List.cons.inj hcs
      simpa using hd
    · simp only [List.cons_append, List.cons.injEq] at hcs
      obtain ⟨rfl, rfl, hcs⟩ := hcs
      simpa using ih hn hcs
  | case4 depth c cs hc ih =>
    cases front with
    | nil =>
      obtain ⟨rfl, hrest⟩ := List.cons.inj hcs
      exact absurd hrest (hc _ rfl)
    | cons d front =>
      obtain ⟨rfl, hfront⟩ := List.cons.inj hcs
      rw [← depth_cons]
      exact ih (Option.map_eq_none_iff.mp h) hfront
  | case5 => simp at hcs

theorem undivided_of_mem_components {part : String} (h : part ∈ components name) :
    Undivided part := by
  intro front rest hpart
  have hne := depth_ne_zero_of_cutLast_eq_none (cutLast_of_mem_components h) hpart
  omega

theorem components_eq_append (name : String) : ∃ front, components name = front ++ [baseName name] ∧
    parent name = "::".intercalate front := by
  rw [baseName, parent, components]
  split
  · next init last hcut =>
    refine ⟨components (String.ofList init), ?_, (intercalate_components _).symm⟩
    rw [cutAll_of_cutLast_eq_some hcut, List.map_append, components, String.toList_ofList]
    rfl
  · next hcut =>
    refine ⟨[], ?_, rfl⟩
    rw [cutAll_of_cutLast_eq_none hcut]
    simp

theorem qualify_parent_baseName (h : parent name ≠ "") :
    qualify (parent name) (baseName name) = name := by
  rw [qualify, if_neg h, baseName, parent]
  rw [parent] at h
  split
  · next init last hcut =>
    rw [← String.toList_inj, cutLast_eq_some hcut]
    simp [String.toList_append]
  · next hcut => simp [hcut] at h

/-- A path is split at its first separator, again and again, into parts that are not divided and
make up the path with separators between them. The last part is its base name, the others make up
what stands in front of that. What is declared under a name is declared again under its full name,
unless it has no name of its own. -/
theorem parts_agree :
    (∀ name, ∃ parts, (∀ parts', SplitsInto name parts' ↔ parts' = parts) ∧
      (∀ part ∈ parts, Undivided part) ∧ "::".intercalate parts = name ∧
      parts.getLast? = some (baseName name) ∧ parent name = "::".intercalate parts.dropLast) ∧
    ∀ text e, Entity.ofName text = .ok e → e.name ≠ "" → Entity.ofName e.fullName = .ok e := by
  constructor
  · intro name
    obtain ⟨front, hparts, hparent⟩ := components_eq_append name
    refine ⟨components name, fun parts' => splitsInto_iff, fun part => undivided_of_mem_components,
      intercalate_components name, ?_, ?_⟩
    · rw [hparts, List.getLast?_concat]
    · rw [hparts, List.dropLast_concat, hparent]
  · intro text e he hne
    obtain ⟨path, hpath, rfl⟩ := Entity.ofName_eq_ok he
    have hnormal := Name.isNormal_of_normalize hpath
    by_cases hparent : parent path = ""
    · -- the last part is all that is left of the path
      have hsingle := hnormal.isSingle_of_mem_components (baseName_mem_components path) hne
      rw [Entity.fullName, hparent, qualify_empty, hsingle.ofName]
    · rw [Entity.fullName, qualify_parent_baseName hparent, Entity.ofName,
        Name.normalize_eq_self hnormal]
      rfl

/-- `b::K<c::L>` in `a`, with a dot for the first separator. -/
theorem parts_agree_of_dotted : ∃ e, Entity.ofName "a.b::K<c::L>" = .ok e ∧
    e.name = "K<c::L>" ∧ e.scopePath = "a::b" ∧ Entity.ofName "a::b::K<c::L>" = .ok e := by
  have he : Entity.ofName "a.b::K<c::L>" = .ok { name := "K<c::L>", scopePath := "a::b" } := by
    decide +kernel
  have hagain := parts_agree.2 _ _ he (by decide)
  have hfull : Entity.fullName { name := "K<c::L>", scopePath := "a::b" } = "a::b::K<c::L>" := by
    decide +kernel
  rw [hfull] at hagain
  exact ⟨_, he, rfl, rfl, hagain⟩

end Path

end ApiModel
