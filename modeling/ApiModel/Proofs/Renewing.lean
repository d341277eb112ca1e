import ApiModel.Proofs.Continuing
import ApiModel.Proofs.PathParts

/-!
Names that are sought again on a later model. Declarations and lookups only add types, so that what
is found under a name is what was found before or a type that was added since. With a path, it also
matters what its first parts lead to; where nothing was found under the path, there is still
nothing, or an added type.
-/

namespace ApiModel

/-- Only the last part of `Base<A,B>` has brackets. -/
theorem Template.no_bracket_of_mem_dropLast {name : String} {base inner : List Char}
    (hname : name.toList = base ++ '<' :: (inner ++ ['>'])) (hopening : '<' ∉ base)
    (hclosing : '>' ∉ base) (hinner : ClosesAtMost 0 inner) {part : String}
    (hpart : part ∈ (Path.components name).dropLast) : '<' ∉ part.toList := by
  induction hn : name.length using Nat.strong_induction_on generalizing name base with
  | _ n ih =>
  cases hcut : Path.splitFirst? name with
  | none =>
    rw [Path.components_of_splitFirst?_eq_none hcut] at hpart
    cases hpart
  | some parts =>
    obtain ⟨head, rest⟩ := parts
    have hlength := Path.length_of_splitFirst? hcut
    have hparts := Path.splitFirst?_eq_some hcut
    rw [Path.components_of_splitFirst?_eq_some hcut,
      List.dropLast_cons_of_ne_nil (by simp [Path.components])] at hpart
    obtain ⟨base', rfl, hrest⟩ | ⟨among, hamong, hhead⟩ := separator_cases (hparts.symm.trans hname)
    · simp only [List.mem_append, List.mem_cons, not_or] at hopening hclosing
      obtain rfl | hpart := List.mem_cons.mp hpart
      · exact hopening.1
      · exact ih rest.length (by omega) hrest hopening.2.2.2 hclosing.2.2.2 hpart rfl
    · -- a separator among the arguments has an open bracket in front of it
      obtain ⟨⟨front, back⟩, hchars, he⟩ := Option.map_eq_some_iff.mp hcut
      cases he
      rw [String.toList_ofList] at hhead
      subst hhead
      have hdepth := Path.depth_of_cutFirst hchars
      have hle := hinner among hamong
      simp only [List.count_append, List.count_cons, List.count_eq_zero_of_not_mem hopening,
        List.count_eq_zero_of_not_mem hclosing] at hdepth
      simp at hdepth
      omega

namespace Model

variable {tame : Prop} {n : Nat} {m later : Model} {s : TypeId} {name : String} {search : Search}
  {follow : Bool} {x y a b : Option TypeRef}

/-- The later result is the same, or a type that the model does not have yet. -/
def Renewed (m : Model) (x y : Option TypeRef) : Prop :=
  y = x ∨ ∃ id, ¬ m.Knows id ∧ y = some (.raw id)

namespace Renewed

theorem refl (x : Option TypeRef) : m.Renewed x x := .inl rfl

theorem or (h : m.Renewed x y) (h' : m.Renewed a b) : m.Renewed (x.or a) (y.or b) := by
  obtain rfl | ⟨id, hid, rfl⟩ := h
  · cases y with
    | none => exact h'
    | some ty => exact .refl _
  · exact .inr ⟨id, hid, rfl⟩

end Renewed

/-- Only the last part of the name has brackets, and templates are tame if it has more than one. -/
def PlainFront (tame : Prop) (name : String) : Prop :=
  ∀ part ∈ (Path.components name).dropLast, tame ∧ '<' ∉ part.toList

theorem plainFront_of_undivided (h : Path.splitFirst? name = none) : PlainFront tame name := by
  rw [PlainFront, Path.components_of_splitFirst?_eq_none h]
  exact List.forall_mem_nil _

theorem PlainFront.of_cut {head rest : String} (h : PlainFront tame name)
    (hcut : Path.splitFirst? name = some (head, rest)) :
    (tame ∧ '<' ∉ head.toList) ∧ PlainFront tame rest := by
  rw [PlainFront, Path.components_of_splitFirst?_eq_some hcut,
    List.dropLast_cons_of_ne_nil (by simp [Path.components])] at h
  exact List.forall_mem_cons.mp h

theorem knows_of_findFirst (ht : m.IsTree) (hc : m.SelfContained) {head : String} {ty : TypeRef}
    (h : m.findFirst s head search follow = some ty) : m.Knows ty.base := by
  unfold findFirst at h
  split at h
  · cases h
    exact ht.knows_root
  · exact (denotes_of_findPlain h).knows ht hc

theorem members_of_not_knows (hs : ¬ m.Knows s) : m.members s = {} := by
  rw [members, scope?, node_of_not_knows hs]
  rfl

theorem plainFront_of_split? {base : String} {arguments : List String}
    (hform : Template.split? name = some (base, arguments)) (hbase : '>' ∉ base.toList) :
    PlainFront True name := by
  obtain ⟨inner, hname, hopening, hinner, -⟩ := Template.split?_eq_some hform
  exact fun part hpart =>
    ⟨trivial, Template.no_bracket_of_mem_dropLast hname hopening hbase hinner hpart⟩

namespace Grows

variable (he : Grows tame m.size m later) (ht : m.IsTree) (ht' : later.IsTree)
  (hc : m.SelfContained)
include he ht hc

theorem sameRoutes : SameRoutes m.Knows m later where
  isNone_scope? := he.isNone_scope?
  used {s} _ := (he.members s).used
  owner? {s} hs := (he.identity s hs).owner
  of_used _ hid := hc.used hid
  of_owner _ ho := ht.owner_known ho

include ht'

omit hc in
theorem type?_of_knows {id : TypeId} (hid : m.Knows id) (hl : later.type? s name = some id) :
    m.type? s name = some id := by
  obtain ⟨hname, howner⟩ := ht'.listed hl
  have hsame := he.identity id hid
  have howner' : m.owner? id = some s := hsame.owner.symm.trans howner
  have hs : (m.node s).isContainer = true := by
    rw [← (he.identity s (ht.owner_known howner')).isContainer]
    exact isContainer_of_type? hl
  rw [← hname, hsame.name]
  exact ht.owned howner' hs

theorem binding?_renewed (s : TypeId) (name : String) :
    m.Renewed ((m.members s).binding? name) ((later.members s).binding? name) := by
  have hkept := he.members s
  have haliases : (later.members s).typeAliases.get? name = (m.members s).typeAliases.get? name :=
    Option.ext fun ty => ⟨hkept.ofAliased, fun h => hkept.aliased (hc.aliased h) h⟩
  rw [Scope.binding?, Scope.binding?, haliases]
  refine .or ?_ (.refl _)
  cases hlater : (later.members s).types.get? name with
  | none =>
    cases hbefore : (m.members s).types.get? name with
    | none => exact .refl _
    | some id =>
      rw [← type?_eq_get?_members] at hbefore
      have hid : m.Knows id := knows_of_owner (ht.listed hbefore).2
      rw [type?_eq_get?_members] at hbefore
      have hstays := hkept.listed hid hbefore
      rw [hlater] at hstays
      cases hstays
  | some id =>
    by_cases hid : m.Knows id
    · rw [← type?_eq_get?_members] at hlater
      have hbefore := he.type?_of_knows ht ht' hid hlater
      rw [type?_eq_get?_members] at hbefore
      rw [hbefore]
      exact .refl _
    · exact .inr ⟨id, hid, rfl⟩

/-- What is found under a name of which only the last part has brackets is what was found before, or
a type that was added since. -/
theorem findPlain_renewed (hname : PlainFront tame name) (hs : m.Knows s) :
    m.Renewed (m.findPlain s name search follow) (later.findPlain s name search follow) := by
  induction hn : name.length using Nat.strong_induction_on generalizing name s search follow with
  | _ n ih =>
  refine (he.sameRoutes ht hc).findPlain_rel (.refl none) .or ht ht'
    (fun s search follow hs => ?_) hs
  have hsame := he.isNone_scope? hs
  cases hcontainer : (m.scope? s).isNone with
  | true =>
    rw [findInside_of_not_container hcontainer,
      findInside_of_not_container (hsame.trans hcontainer)]
    exact .refl none
  | false =>
    cases hcut : Path.splitFirst? name with
    | none =>
      rw [findInside_of_undivided hcut, findInside_of_undivided hcut]
      exact he.binding?_renewed ht ht' hc s name
    | some parts =>
      obtain ⟨head, rest⟩ := parts
      obtain ⟨⟨htame, hhead⟩, hrest⟩ := hname.of_cut hcut
      have hlength := Path.length_of_splitFirst? hcut
      have hfirst : later.findFirst s head search follow = m.findFirst s head search follow := by
        rw [findFirst, findFirst, he.findPlain_eq htame hc ht hs hhead]
      rw [findInside_of_cut hcut hcontainer, findInside_of_cut hcut (hsame.trans hcontainer),
        hfirst]
      refine (he.binding?_renewed ht ht' hc s name).or ?_
      unfold findBehind
      split
      · next outer houter =>
        exact ih rest.length (by omega) hrest (knows_of_findFirst ht hc houter) rfl
      · exact .refl none

/-- Only added types are found in types that were added. -/
theorem findPlain_added (hname : "" ∉ Path.components name) (hs : ¬ m.Knows s) :
    m.Renewed none (later.findPlain s name .local follow) := by
  induction hn : name.length using Nat.strong_induction_on generalizing name s follow with
  | _ n ih =>
  have hbinding : m.Renewed none ((later.members s).binding? name) := by
    have hrenewed := he.binding?_renewed ht ht' hc s name
    rwa [members_of_not_knows hs] at hrenewed
  have hused : later.findInUsed later.findPlain s name = none := by
    rw [findInUsed_eq_members, (he.members s).used, members_of_not_knows hs]
    rfl
  rw [findPlain_unfold ht', hused, findAround_local, ite_self, Option.or_none, Option.or_none]
  split_ifs with hcontainer
  · exact .refl none
  rw [Bool.not_eq_true] at hcontainer
  cases hcut : Path.splitFirst? name with
  | none =>
    rw [findInside_of_undivided hcut]
    exact hbinding
  | some parts =>
    obtain ⟨head, rest⟩ := parts
    have hlength := Path.length_of_splitFirst? hcut
    rw [Path.components_of_splitFirst?_eq_some hcut, List.mem_cons, not_or] at hname
    rw [findInside_of_cut hcut hcontainer, findFirst, if_neg (Ne.symm hname.1)]
    refine Renewed.or (x := none) (a := none) hbinding ?_
    have hhead : "" ∉ Path.components head := by
      rw [Path.components_of_splitFirst?_eq_none (Path.splitFirst?_head hcut)]
      exact fun h => hname.1 (List.mem_singleton.mp h)
    obtain hnone | ⟨outer, houter, hfound⟩ :
        m.Renewed none (later.findPlain s head .local follow) :=
      ih head.length (by omega) hhead hs rfl
    · rw [hnone]
      exact .refl none
    · rw [hfound]
      exact ih rest.length (by omega) hname.2 houter rfl

/-- Under a name that nothing was found under, only types are found that were added since. Where a
part behind the first one is empty, the search would begin at the root again. -/
theorem findPlain_missed (hname : "" ∉ (Path.components name).tail) (hs : m.Knows s)
    (hnone : m.findPlain s name search follow = none) :
    m.Renewed none (later.findPlain s name search follow) := by
  induction hn : name.length using Nat.strong_induction_on generalizing name s search follow with
  | _ n ih =>
  refine (he.sameRoutes ht hc).findPlain_rel (R := fun x y => x = none → m.Renewed none y)
    (fun _ => .refl none) (fun hx hx' hnone => ?_) ht ht' (fun s search follow hs hnone => ?_) hs
    hnone
  · obtain ⟨hfirst, hsecond⟩ := Option.or_eq_none_iff.mp hnone
    exact Renewed.or (x := none) (a := none) (hx hfirst) (hx' hsecond)
  have hsame := he.isNone_scope? hs
  cases hcontainer : (m.scope? s).isNone with
  | true =>
    rw [findInside_of_not_container (hsame.trans hcontainer)]
    exact .refl none
  | false =>
    cases hcut : Path.splitFirst? name with
    | none =>
      rw [findInside_of_undivided hcut] at hnone ⊢
      rw [← hnone]
      exact he.binding?_renewed ht ht' hc s name
    | some parts =>
      obtain ⟨head, rest⟩ := parts
      have hlength := Path.length_of_splitFirst? hcut
      rw [Path.components_of_splitFirst?_eq_some hcut, List.tail_cons] at hname
      rw [findInside_of_cut hcut hcontainer] at hnone
      obtain ⟨hbinding, hbehind⟩ := Option.or_eq_none_iff.mp hnone
      rw [findInside_of_cut hcut (hsame.trans hcontainer)]
      refine Renewed.or (x := none) (a := none) ?_ ?_
      · rw [← hbinding]
        exact he.binding?_renewed ht ht' hc s name
      · have hfirst : m.Renewed (m.findFirst s head search follow)
            (later.findFirst s head search follow) := by
          unfold findFirst
          split
          · exact .refl _
          · exact he.findPlain_renewed ht ht' hc
              (plainFront_of_undivided (Path.splitFirst?_head hcut)) hs
        -- if the first part leads to an added type now, so does what is behind it
        obtain hfirst | ⟨outer, houter, hfirst⟩ := hfirst
        · rw [hfirst]
          unfold findBehind at hbehind ⊢
          split at hbehind
          · next outer houter =>
            exact ih rest.length (by omega) (fun h => hname (List.mem_of_mem_tail h))
              (knows_of_findFirst ht hc houter) hbehind rfl
          · exact .refl none
        · rw [hfirst]
          exact he.findPlain_added ht ht' hc hname houter

end Grows

end Model

end ApiModel
