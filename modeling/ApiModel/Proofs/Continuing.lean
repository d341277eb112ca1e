import ApiModel.Proofs.Descending
import ApiModel.Proofs.Searching

/-!
Paths that go on. The search for a path asks the same places in the same order as the search for its
beginning, and where that misses there is nothing for the whole path either, as long as no scope has
a type under the path as a whole.
-/

namespace ApiModel

namespace Path

variable {depth : Int} {opened : Bool} {cs head tail : List Char}

theorem bracket_of_cutAfterBracket (h : cutAfterBracket depth opened cs = some (head, tail)) :
    opened = true ∨ '<' ∈ head := by
  fun_induction cutAfterBracket depth opened cs generalizing head tail with
  | case1 depth opened cs hd => simp_all
  | case2 depth opened cs hd ih =>
    obtain ⟨⟨head, tail⟩, hcut, he⟩ := Option.map_eq_some_iff.mp h
    cases he
    exact (ih hcut).imp id fun hmem => by simp [hmem]
  | case3 depth opened c cs hc ih =>
    obtain ⟨⟨head, tail⟩, hcut, he⟩ := Option.map_eq_some_iff.mp h
    cases he
    obtain ho | hmem := ih hcut
    · obtain ho | hc := Bool.or_eq_true_iff.mp ho
      · exact .inl ho
      · exact .inr (by simp_all)
    · exact .inr (by simp [hmem])
  | case4 => cases h

/-- The first separator behind a bracket is the first one of all, or the text in front of it begins
with the same part as the whole. -/
theorem cutAfterBracket_cases (h : cutAfterBracket depth opened cs = some (head, tail)) :
    cutFirst depth cs = some (head, tail) ∨
      ∃ front rest later, cutFirst depth head = some (front, rest) ∧
        cutFirst depth cs = some (front, later) ∧
        cutAfterBracket 0 false later = some (rest, tail) := by
  fun_induction cutAfterBracket depth opened cs generalizing head tail with
  | case1 depth opened cs hd =>
    obtain ⟨rfl, -⟩ := by simpa using hd
    cases h
    exact .inl (by rw [cutFirst, if_pos rfl])
  | case2 depth opened cs hd ih =>
    obtain ⟨⟨head, tail⟩, hcut, he⟩ := Option.map_eq_some_iff.mp h
    cases he
    by_cases hdepth : depth = 0
    · subst hdepth
      obtain rfl : opened = false := by simpa using hd
      refine .inr ⟨[], head, cs, ?_, ?_, hcut⟩ <;> rw [cutFirst, if_pos rfl]
    · obtain hfirst | ⟨front, rest, later, hhead, hcs, hlater⟩ := ih hcut
      · exact .inl (by rw [cutFirst, if_neg hdepth, hfirst, Option.map_some])
      · refine .inr ⟨':' :: ':' :: front, rest, later, ?_, ?_, hlater⟩
        · rw [cutFirst, if_neg hdepth, hhead, Option.map_some]
        · rw [cutFirst, if_neg hdepth, hcs, Option.map_some]
  | case3 depth opened c cs hc ih =>
    obtain ⟨⟨head, tail⟩, hcut, he⟩ := Option.map_eq_some_iff.mp h
    cases he
    have hhead' : ∀ rest, c = ':' → head = ':' :: rest → False := by
      rintro rest rfl rfl
      exact hc _ rfl (cutAfterBracket_eq_some hcut)
    obtain hfirst | ⟨front, rest, later, hhead, hcs, hlater⟩ := ih hcut
    · refine .inl ?_
      rw [cutFirst, hfirst, Option.map_some]
      exact hc
    · refine .inr ⟨c :: front, rest, later, ?_, ?_, hlater⟩
      · rw [cutFirst, hhead, Option.map_some]
        exact hhead'
      · rw [cutFirst, hcs, Option.map_some]
        exact hc
  | case4 => cases h

theorem splitFirst?_of_chars {name : String} (h : cutFirst 0 name.toList = some (head, tail)) :
    splitFirst? name = some (String.ofList head, String.ofList tail) :=
  splitFirst?_of_cutFirst (by rw [h, String.toList_ofList, String.toList_ofList])

/-- What stands in front of a separator behind brackets is the first part of the name, or begins
with it. -/
theorem splitAfterTemplate?_cases {name head tail : String}
    (h : splitAfterTemplate? name = some (head, tail)) :
    head ≠ "" ∧ splitFirst? name = some (head, tail) ∨
      ∃ front rest later, splitFirst? head = some (front, rest) ∧
        splitFirst? name = some (front, later) ∧
        splitAfterTemplate? later = some (rest, tail) := by
  obtain ⟨⟨head, tail⟩, hcut, he⟩ := Option.map_eq_some_iff.mp h
  cases he
  obtain hfirst | ⟨front, rest, later, hhead, hname, hlater⟩ := cutAfterBracket_cases hcut
  · refine .inl ⟨fun hempty => ?_, splitFirst?_of_chars hfirst⟩
    obtain hopened | hmem := bracket_of_cutAfterBracket hcut
    · cases hopened
    · obtain rfl : head = [] := String.ofList_eq_empty_iff.mp hempty
      cases hmem
  · refine .inr ⟨String.ofList front, String.ofList rest, String.ofList later,
      splitFirst?_of_chars ?_, splitFirst?_of_chars hname, ?_⟩
    · rwa [String.toList_ofList]
    · rw [splitAfterTemplate?, String.toList_ofList, hlater]
      rfl

end Path

namespace Model

variable {m m' : Model} {s : TypeId} {D : TypeId → Prop} {head rest rest' tail name name' : String}
  {search : Search} {follow : Bool} {x x' y y' : Option TypeRef}

theorem IsTree.owner_induction {P : TypeId → Prop} (ht : m.IsTree)
    (h : ∀ s, (∀ owner, m.owner? s = some owner → P owner) → P s) (s : TypeId) : P s := by
  obtain ⟨rank, hrank⟩ := ht.exists_rank
  induction hr : rank s using Nat.strong_induction_on generalizing s with
  | _ r ih =>
    subst hr
    exact h s fun owner ho => ih _ (hrank.lt ho) owner rfl

theorem findInside_of_not_container
    {shorter : TypeId → String → Search → Bool → Option TypeRef}
    (hs : (m.scope? s).isNone = true) : m.findInside shorter s name search follow = none := by
  rw [findInside, Option.isNone_iff_eq_none.mp hs]

@[simp] theorem findAround_local (m : Model) (s : TypeId) (name : String) :
    m.findAround s name .local = none := rfl

/-- A local search that does not follow what the scope uses asks the scope only. -/
theorem findPlain_inside (ht : m.IsTree) (s : TypeId) (name : String) :
    m.findPlain s name .local false = m.findInside m.findPlain s name .local false := by
  rw [findPlain_unfold ht]
  split_ifs with hs hfalse
  · exact (findInside_of_not_container hs).symm
  · cases hfalse
  · rw [findAround_local, Option.or_none, Option.or_none]

/-- What the rest of a path leads to in the type that its beginning leads to. -/
def findBehind (m : Model) (rest : String) : Option TypeRef → Option TypeRef
  | some (.raw outer) => m.findPlain outer rest .local true
  | _ => none

/-- What the first part of a path leads to, where an empty one stands for the root. -/
def findFirst (m : Model) (s : TypeId) (head : String) (search : Search) (follow : Bool) :
    Option TypeRef :=
  if head = "" then some (.raw .root) else m.findPlain s head search follow

/-- What a scope has under a path is what it has under the path as a whole, or else what the rest
leads to from the first part. -/
theorem findInside_of_cut (hcut : Path.splitFirst? name = some (head, rest))
    (hs : (m.scope? s).isNone = false) :
    m.findInside m.findPlain s name search follow = ((m.members s).binding? name).or
      (m.findBehind rest (m.findFirst s head search follow)) := by
  obtain ⟨a, ha⟩ : ∃ a, m.scope? s = some a := by simpa [Option.isSome_iff_exists] using hs
  rw [findInside, ha, members_of_scope ha, Scope.binding?]
  dsimp only
  rw [← Option.or_assoc, hcut]
  rfl

def Unlisted (m : Model) (name : String) : Prop := ∀ s, (m.members s).binding? name = none

theorem findInside_of_divided (hno : m.Unlisted name)
    (hcut : Path.splitFirst? name = some (head, rest)) (hs : (m.scope? s).isNone = false) :
    m.findInside m.findPlain s name search follow =
      m.findBehind rest (m.findFirst s head search follow) := by
  rw [findInside_of_cut hcut hs, hno s, Option.none_or]

/-- From the scopes of `D` both models are searched in the same places. -/
structure SameRoutes (D : TypeId → Prop) (m m' : Model) : Prop where
  isNone_scope? : ∀ {s}, D s → (m'.scope? s).isNone = (m.scope? s).isNone
  used : ∀ {s}, D s → (m'.members s).used = (m.members s).used
  owner? : ∀ {s}, D s → m'.owner? s = m.owner? s
  of_used : ∀ {s id}, D s → id ∈ (m.members s).used → D id
  of_owner : ∀ {s owner}, D s → m.owner? s = some owner → D owner

namespace SameRoutes

theorem refl (m : Model) : SameRoutes (fun _ => True) m m :=
  ⟨fun _ => rfl, fun _ => rfl, fun _ => rfl, fun _ _ => trivial, fun _ _ => trivial⟩

section

variable {R : Option TypeRef → Option TypeRef → Prop} (hnone : R none none)
  (hor : ∀ {x x' y y'}, R x y → R x' y' → R (x.or x') (y.or y'))
include hnone hor

theorem findSome?_rel {f g : TypeId → Option TypeRef} {ids : List TypeId}
    (h : ∀ id ∈ ids, R (f id) (g id)) : R (ids.findSome? f) (ids.findSome? g) := by
  induction ids with
  | nil => exact hnone
  | cons id ids ih =>
    obtain ⟨hid, hids⟩ := List.forall_mem_cons.mp h
    have hfirst := hor hid (ih hids)
    rw [List.findSome?_cons, List.findSome?_cons]
    cases hf : f id <;> cases hg : g id <;> simpa [hf, hg] using hfirst

/-- What holds between the results in all scopes themselves holds between those of the searches. -/
theorem findPlain_rel (h : SameRoutes D m m') (ht : m.IsTree) (ht' : m'.IsTree)
    (hinside : ∀ s search follow, D s → R (m.findInside m.findPlain s name search follow)
      (m'.findInside m'.findPlain s name' search follow))
    (hs : D s) : R (m.findPlain s name search follow) (m'.findPlain s name' search follow) := by
  induction s using ht.owner_induction generalizing search follow with
  | _ s ih =>
  have haround : R (m.findAround s name search) (m'.findAround s name' search) := by
    unfold findAround
    rw [h.owner? hs]
    cases search with
    | «local» => exact hnone
    | owners =>
      cases ho : m.owner? s with
      | none => exact hnone
      | some owner => exact ih owner ho (h.of_owner hs ho)
  have hused : R (m.findInUsed m.findPlain s name) (m'.findInUsed m'.findPlain s name') := by
    rw [findInUsed_eq_members, findInUsed_eq_members, h.used hs]
    exact findSome?_rel hnone hor fun id hid => hinside id .local false (h.of_used hs hid)
  rw [findPlain_unfold ht, findPlain_unfold ht', h.isNone_scope? hs]
  split_ifs with hcontainer hfollow
  · exact hnone
  · exact hor (hinside s search follow hs) (hor hused haround)
  · exact hor (hinside s search follow hs) (hor hnone haround)

end

end SameRoutes

/-- If the first result misses, the second does, and if the tail is found where the first result
leads to, the second is that. -/
structure Continues (m : Model) (tail : String) (x y : Option TypeRef) : Prop where
  missed : x = none → y = none
  found : ∀ ty, m.findBehind tail x = some ty → y = some ty

namespace Continues

theorem of_none : m.Continues tail none none := ⟨fun _ => rfl, nofun⟩

theorem or (h : m.Continues tail x y) (h' : m.Continues tail x' y') :
    m.Continues tail (x.or x') (y.or y') := by
  cases x with
  | none =>
    rw [h.missed rfl]
    exact h'
  | some ty =>
    refine ⟨nofun, fun found hfound => ?_⟩
    rw [h.found found hfound]
    rfl

theorem behind (h : ∀ outer, m.Continues tail (m.findPlain outer rest .local true)
      (m.findPlain outer rest' .local true)) (x : Option TypeRef) :
    m.Continues tail (m.findBehind rest x) (m.findBehind rest' x) := by
  unfold findBehind
  split
  · exact h _
  · exact of_none

theorem of_parts (ht : m.IsTree) (hno : m.Unlisted name) (hno' : m.Unlisted name')
    (hcut : Path.splitFirst? name = some (head, rest))
    (hcut' : Path.splitFirst? name' = some (head, rest'))
    (h : ∀ outer, m.Continues tail (m.findPlain outer rest .local true)
      (m.findPlain outer rest' .local true))
    (s : TypeId) (search : Search) (follow : Bool) :
    m.Continues tail (m.findPlain s name search follow) (m.findPlain s name' search follow) := by
  refine (SameRoutes.refl m).findPlain_rel of_none or ht ht (fun s search follow _ => ?_) trivial
  cases hs : (m.scope? s).isNone with
  | true =>
    rw [findInside_of_not_container hs, findInside_of_not_container hs]
    exact of_none
  | false =>
    rw [findInside_of_divided hno hcut hs, findInside_of_divided hno' hcut' hs]
    exact behind h _

end Continues

section

variable (ht : m.IsTree) (hno : m.Unlisted name)
  (hcut : Path.splitFirst? name = some (head, tail)) (hne : head ≠ "")
include ht hno hcut hne

theorem findPlain_first_missed (s : TypeId) (search : Search) (follow : Bool)
    (hnone : m.findPlain s head search follow = none) :
    m.findPlain s name search follow = none := by
  have hinside {s search follow} (hnone : m.findPlain s head search follow = none) :
      m.findInside m.findPlain s name search follow = none := by
    cases hs : (m.scope? s).isNone with
    | true => exact findInside_of_not_container hs
    | false =>
      rw [findInside_of_divided hno hcut hs, findFirst, if_neg hne, hnone]
      rfl
  induction s using ht.owner_induction generalizing search follow with
  | _ s ih =>
  -- the first part is missing in each of the places that the search asks
  have hused (h : m.findInUsed m.findPlain s head = none) :
      m.findInUsed m.findPlain s name = none := by
    rw [findInUsed_eq_members, List.findSome?_eq_none_iff] at h ⊢
    intro id hid
    refine hinside ?_
    rw [findPlain_inside ht]
    exact h id hid
  have haround (h : m.findAround s head search = none) : m.findAround s name search = none := by
    unfold findAround at h ⊢
    split at h
    · exact ih _ ‹_› _ _ h
    · rfl
  have hhere := hinside hnone
  rw [findPlain_unfold ht] at hnone ⊢
  split_ifs at hnone ⊢ with hs hfollow
  · rfl
  · rw [Option.or_eq_none_iff, Option.or_eq_none_iff] at hnone
    rw [hhere, hused hnone.2.1, haround hnone.2.2]
    rfl
  · rw [Option.or_eq_none_iff, Option.none_or] at hnone
    rw [hhere, haround hnone.2]
    rfl

/-- Where the first part of a path leads to a type, the scope itself has what the tail leads to from
there. -/
theorem continues_first (s : TypeId) (search : Search) (follow : Bool) :
    m.Continues tail (m.findPlain s head search follow) (m.findPlain s name search follow) where
  missed := findPlain_first_missed ht hno hcut hne s search follow
  found ty hfound := by
    cases hs : (m.scope? s).isNone with
    | true =>
      rw [findPlain_unfold ht, if_pos hs] at hfound
      cases hfound
    | false =>
      rw [findPlain_unfold ht, hs, if_neg Bool.false_ne_true,
        findInside_of_divided hno hcut hs, findFirst, if_neg hne, hfound, Option.some_or]

end

theorem NamesUndivided.unlisted (hm : m.NamesUndivided)
    (hcut : Path.splitFirst? name = some (head, tail)) : m.Unlisted name :=
  fun _ => hm.binding?_eq_none hcut

/-- The search for a name behind template arguments continues the search for what stands in front
of the separator. -/
theorem continues_outer (ht : m.IsTree) (hm : m.NamesUndivided)
    (hcut : Path.splitAfterTemplate? name = some (head, tail)) (s : TypeId) (search : Search)
    (follow : Bool) :
    m.Continues tail (m.findPlain s head search follow) (m.findPlain s name search follow) := by
  induction hn : name.length using Nat.strong_induction_on
    generalizing name head s search follow with
  | _ n ih =>
  obtain ⟨hne, hfirst⟩ | ⟨front, rest, later, hhead, hname, hlater⟩ :=
    Path.splitAfterTemplate?_cases hcut
  · exact continues_first ht (hm.unlisted hfirst) hfirst hne s search follow
  · have hlength := Path.length_of_splitFirst? hname
    exact .of_parts ht (hm.unlisted hhead) (hm.unlisted hname) hhead hname
      (fun outer => ih later.length (by omega) hlater outer .local true rfl) s search follow

end Model

end ApiModel
