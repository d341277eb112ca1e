import ApiModel.Proofs.Identifiers
import ApiModel.Proofs.ReadOnly
import ApiModel.Proofs.Rebinding

/-!
The search for types without its bounds. It goes on from a name to the parts of it, which are
shorter, and from a scope to the one around it, which comes to an end at the root. So the bounds
that its definition keeps are never met, and it is what it is meant to be: the first hit in the
scope, in the namespaces that the scope uses, and in the scope around it.
-/

namespace ApiModel

theorem Path.length_of_splitFirst? {name head tail : String}
    (h : splitFirst? name = some (head, tail)) : head.length + tail.length + 2 = name.length := by
  have hlength := congrArg List.length (splitFirst?_eq_some h)
  simp only [String.length_toList, List.length_append, List.length_cons] at hlength
  omega

namespace Name

variable {query head tail : String}

/-- A path without brackets that is its own query. -/
structure IsPlainPath (query : String) : Prop where
  isPlainQuery : IsPlainQuery query
  isPath : Path.IsPath query
  no_bracket : '<' ∉ query.toList

namespace IsPlainPath

theorem absolute (h : IsPlainPath query) : IsPlainPath ("::" ++ query) where
  isPlainQuery := h.isPlainQuery.absolute
  isPath := h.isPath.absolute
  no_bracket hmem := by
    rw [String.toList_append, List.mem_append] at hmem
    exact hmem.elim (by decide) h.no_bracket

theorem join (h : IsPlainPath head) (h' : IsPlainPath tail) :
    IsPlainPath (head ++ "::" ++ tail) where
  isPlainQuery := h.isPlainQuery.join h'.isPlainQuery
  isPath := h.isPath.join h'.isPath
  no_bracket hmem := by
    rw [String.append_assoc, String.toList_append, List.mem_append] at hmem
    exact hmem.elim h.no_bracket h'.absolute.no_bracket

end IsPlainPath

theorem IsWord.isPlainPath (h : IsWord query) : IsPlainPath query where
  isPlainQuery := h.isPlainQuery
  isPath := h.isPart.toIsPath
  no_bracket := h.not_mem (by decide)

end Name

namespace Model

variable {m : Model} {s scope : TypeId} {name head tail : String} {search : Search}
  {follow : Bool} {bound bound' : Nat}
  {shorter shorter' : TypeId → String → Search → Bool → Option TypeRef}

/-- What a scope has under a name depends on what is found under shorter names. -/
theorem findInside_congr
    (h : ∀ s part search follow, part.length < name.length →
      shorter' s part search follow = shorter s part search follow) :
    m.findInside shorter' s name search follow = m.findInside shorter s name search follow := by
  unfold findInside
  cases hcut : Path.splitFirst? name with
  | none => rfl
  | some parts =>
    obtain ⟨head, tail⟩ := parts
    have hlength := Path.length_of_splitFirst? hcut
    dsimp only
    rw [h s head search follow (by omega)]
    simp only [h _ tail .local true (by omega)]

theorem findInUsed_congr
    (h : ∀ s part search follow, part.length < name.length →
      shorter' s part search follow = shorter s part search follow) :
    m.findInUsed shorter' s name = m.findInUsed shorter s name := by
  simp only [findInUsed, findInside_congr h]

/-- Any two numbers of climbs that reach the root give the same. -/
theorem findFrom_congr {rank : TypeId → Nat} (hrank : IsRank m.Owned m.size rank)
    (h : ∀ s part search follow, part.length < name.length →
      shorter' s part search follow = shorter s part search follow)
    {climbs climbs' : Nat} (hclimbs : rank s ≤ climbs) (hclimbs' : rank s ≤ climbs') :
    m.findFrom shorter' name climbs' s search follow =
      m.findFrom shorter name climbs s search follow := by
  induction climbs using Nat.strong_induction_on generalizing s climbs' search follow with
  | _ climbs ih =>
  unfold findFrom
  rw [findInside_congr h, findInUsed_congr h]
  congr 3
  cases ho : m.owner? s with
  | none => cases climbs <;> cases climbs' <;> cases search <;> rfl
  | some owner =>
    have hlt := hrank.lt ho
    obtain ⟨climbs, rfl⟩ : ∃ c, climbs = c + 1 := ⟨climbs - 1, by omega⟩
    obtain ⟨climbs', rfl⟩ : ∃ c, climbs' = c + 1 := ⟨climbs' - 1, by omega⟩
    cases search with
    | «local» => rfl
    | owners => exact ih climbs (Nat.lt_succ_self _) (by omega) (by omega)

theorem findBelow_congr (ht : m.IsTree) (hb : name.length < bound) (hb' : name.length < bound') :
    m.findBelow bound' s name search follow = m.findBelow bound s name search follow := by
  obtain ⟨rank, hrank⟩ := ht.exists_rank
  induction bound generalizing s name search follow bound' with
  | zero => omega
  | succ bound ih =>
    obtain ⟨bound', rfl⟩ : ∃ n, bound' = n + 1 := ⟨bound' - 1, by omega⟩
    exact findFrom_congr hrank (fun _ part _ _ hpart => ih (by omega) (by omega)) (hrank.le s)
      (hrank.le s)

/-- What is found in the scope around a scope, unless the search is local. -/
def findAround (m : Model) (scope : TypeId) (name : String) (search : Search) : Option TypeRef :=
  match search, m.owner? scope with
  | .owners, some owner => m.findPlain owner name .owners true
  | _, _ => none

/-- The search is the first hit in the scope, in what it uses, and around it, where parts of the
name are found by the same search. -/
theorem findPlain_unfold (ht : m.IsTree) (s : TypeId) (name : String) (search : Search)
    (follow : Bool) : m.findPlain s name search follow =
      if (m.scope? s).isNone then none
      else (m.findInside m.findPlain s name search follow).or <|
        (if follow then m.findInUsed m.findPlain s name else none).or <|
          m.findAround s name search := by
  obtain ⟨rank, hrank⟩ := ht.exists_rank
  have hshorter : ∀ s part search follow, part.length < name.length →
      m.findBelow name.length s part search follow = m.findPlain s part search follow :=
    fun _ part _ _ hpart => findBelow_congr ht (Nat.lt_succ_self _) hpart
  rw [findPlain, findBelow, findFrom.eq_def]
  dsimp only
  rw [findInside_congr hshorter, findInUsed_congr hshorter]
  congr 3
  unfold findAround
  cases ho : m.owner? s with
  | none => cases m.size <;> cases search <;> rfl
  | some owner =>
    have hlt := hrank.lt ho
    have hle := hrank.le s
    obtain ⟨climbs, hsize⟩ : ∃ c, m.size = c + 1 := ⟨m.size - 1, by omega⟩
    rw [hsize]
    cases search with
    | «local» => rfl
    | owners => exact findFrom_congr hrank (fun _ _ _ _ _ => rfl) (hrank.le owner) (by omega)

theorem findPlain_unfold_of_undivided (ht : m.IsTree) (hdiv : Path.splitFirst? name = none)
    (hc : (m.node s).isContainer = true) :
    m.findPlain s name search follow = ((m.members s).binding? name).or
      ((if follow then (m.members s).used.findSome? fun u => (m.members u).binding? name
        else none).or (m.findAround s name search)) := by
  have hs : (m.scope? s).isNone = false := by
    obtain ⟨a, ha⟩ := isContainer_iff.mp hc
    rw [ha, Option.isNone_some]
  rw [findPlain_unfold ht, hs, findInside_of_undivided hdiv, findInUsed_eq_members]
  simp only [findInside_of_undivided hdiv, Bool.false_eq_true, if_false]

theorem findType_of_plain {query : String} (h : Name.IsPlainPath query) (s : TypeId)
    (search : Search) : m.findType s query search = m.findPlain s query search true := by
  have hsplit : TypeQuery.split (Name.normalizeQuery query) = .ok (query, []) := by
    rw [h.isPlainQuery.normalizeQuery_eq]
    simpa using h.isPath.split (List.forall_mem_nil _) (.inl List.not_mem_nil)
  have hmade : m.findMade s search query = none := by
    simp [findMade, Template.split?_eq_none h.no_bracket]
  rw [findType_eq hsplit, hmade, Option.or_none]
  cases m.findPlain s query search true <;> rfl

end Model

end ApiModel
