import ApiModel.Proofs.Labels

/-!
What reading lookup can find. Wherever it searches, a name that it finds consists of names and
aliases that scopes list, and a name with template arguments leads to a class that was made from a
template.
-/

namespace ApiModel

open Template

namespace Model

variable {m : Model} {scope : TypeId} {name : String} {search : Search} {follow : Bool}
  {ty : TypeRef}

/-- The name leads to the type from some scope. -/
inductive Denotes (m : Model) : String → TypeRef → Prop
  | type {s id : TypeId} {name : String} (listed : m.type? s name = some id) :
      Denotes m name (.raw id)
  | typeAlias {s : TypeId} {a : Scope} {name : String} {ty : TypeRef}
      (members : m.scope? s = some a) (listed : a.typeAliases.get? name = some ty) :
      Denotes m name ty
  /-- Part by part, from the root if the first part is empty. -/
  | parts {name head tail : String} {outer : TypeId} {ty : TypeRef}
      (cut : Path.splitFirst? name = some (head, tail))
      (front : head ≠ "" → Denotes m head (.raw outer)) (rest : Denotes m tail ty) :
      Denotes m name ty

section

variable {shorter : TypeId → String → Search → Bool → Option TypeRef}

theorem denotes_of_findInside
    (hshorter : ∀ {scope name search follow ty}, shorter scope name search follow = some ty →
      m.Denotes name ty)
    (h : m.findInside shorter scope name search follow = some ty) : m.Denotes name ty := by
  unfold findInside at h
  split at h
  · cases h
  next members hs =>
  obtain h | h := Option.or_eq_some_iff.mp h
  · obtain ⟨id, hid, rfl⟩ := Option.map_eq_some_iff.mp h
    exact .type (type?_eq_some_iff.mpr ⟨members, hs, hid⟩)
  obtain h | ⟨-, h⟩ := Option.or_eq_some_iff.mp h.2
  · exact .typeAlias hs h
  split at h
  · cases h
  next head tail hcut =>
  split at h
  next outer houter =>
    have hfront : head ≠ "" → m.Denotes head (.raw outer) := fun hne => by
      rw [if_neg hne] at houter
      exact hshorter houter
    exact .parts hcut hfront (hshorter h)
  · cases h

theorem denotes_of_findFrom
    (hshorter : ∀ {scope name search follow ty}, shorter scope name search follow = some ty →
      m.Denotes name ty)
    {climbs : Nat} (h : m.findFrom shorter name climbs scope search follow = some ty) :
    m.Denotes name ty := by
  induction climbs using Nat.strong_induction_on generalizing scope search follow with
  | _ climbs ih =>
  unfold findFrom at h
  split at h
  · cases h
  obtain h | ⟨-, h⟩ := Option.or_eq_some_iff.mp h
  · exact denotes_of_findInside hshorter h
  obtain h | ⟨-, h⟩ := Option.or_eq_some_iff.mp h
  · split at h
    · obtain ⟨used, -, h⟩ := Option.bind_eq_some_iff.mp h
      obtain ⟨id, -, h⟩ := List.exists_of_findSome?_eq_some h
      exact denotes_of_findInside hshorter h
    · cases h
  split at h
  · exact ih _ (Nat.lt_succ_self _) h
  · cases h

theorem denotes_of_findBelow {bound : Nat}
    (h : m.findBelow bound scope name search follow = some ty) : m.Denotes name ty := by
  induction bound generalizing scope name search follow ty with
  | zero => cases h
  | succ bound ih => exact denotes_of_findFrom ih h

theorem denotes_of_findPlain (h : m.findPlain scope name search follow = some ty) :
    m.Denotes name ty := denotes_of_findBelow h

end

/-- What is found does not end inside of template arguments. -/
theorem Denotes.closing (h : m.Denotes name ty) (hm : Bracketed m) (ht : m.IsTree) :
    Closing name.toList := by
  induction h with
  | type listed =>
    rw [← (ht.listed listed).1]
    exact (hm.closes _).name
  | typeAlias members listed => exact closing_of_not_mem (hm.typeAliases _ _ members _ _ listed)
  | @parts name head tail outer ty cut front rest ihfront ihrest =>
    rw [Path.splitFirst?_eq_some cut]
    by_cases hne : head = ""
    · rw [hne]
      exact Closing.join (closing_of_not_mem (by decide)) ihrest
    · exact (ihfront hne).join ihrest

/-- A name with template arguments leads to a class that bears the end of the name from some part
on. No separator inside of the arguments is taken for one of the name. -/
theorem Denotes.made (h : m.Denotes name ty) (hm : Bracketed m) (ht : m.IsTree)
    {front inner : List Char} (hname : name.toList = front ++ '<' :: (inner ++ ['>']))
    (hfront : '<' ∉ front) (hinner : ClosesAtMost 0 inner) :
    ∃ id, ty = .raw id ∧ '<' ∈ (m.node id).name.toList ∧
      (m.node id).name.toList <:+ name.toList := by
  induction h generalizing front with
  | @type s id name listed =>
    have hlisted := (ht.listed listed).1
    refine ⟨id, rfl, ?_, ?_⟩
    · rw [hlisted, hname]
      simp
    · rw [hlisted]
  | typeAlias members listed =>
    exact absurd (by rw [hname]; simp) (hm.typeAliases _ _ members _ _ listed)
  | @parts name head tail outer ty cut before rest ihfront ihrest =>
    have hcut := Path.splitFirst?_eq_some cut
    obtain ⟨front', rfl, htail⟩ | ⟨rest, hrest, hhead⟩ := separator_cases (hcut.symm.trans hname)
    · have hfront' : '<' ∉ front' := fun hmem => hfront (by simp [hmem])
      obtain ⟨id, rfl, hb, hsuffix⟩ := ihrest htail hfront'
      refine ⟨id, rfl, hb, hsuffix.trans ?_⟩
      rw [hcut]
      exact ⟨head.toList ++ [':', ':'], by simp⟩
    · -- what stands in front of the separator would end inside of the arguments
      have hne : head ≠ "" := by
        rintro rfl
        simp at hhead
      exact absurd (hhead ▸ (before hne).closing hm ht)
        (not_closing_among_arguments hfront hinner hrest)

/-- A query with template arguments that is found as it stands leads to a class that was made from
a template. -/
theorem made_of_findPlain (hm : Bracketed m) (ht : m.IsTree) {base : String}
    {arguments : List String} (hs : Template.split? name = some (base, arguments))
    (h : m.findPlain scope name search follow = some ty) :
    ∃ id made, ty = .raw id ∧ (m.node id).specialization = some made ∧
      '<' ∈ (m.node id).name.toList ∧ (m.node id).name.toList <:+ name.toList := by
  obtain ⟨inner, hname, hbase, hinner, -⟩ := Template.split?_eq_some hs
  obtain ⟨id, rfl, hb, hsuffix⟩ := (denotes_of_findPlain h).made hm ht hname hbase hinner
  obtain ⟨made, hmade⟩ := hm.made id hb
  exact ⟨id, made, rfl, hmade, hb, hsuffix⟩

end Model

end ApiModel
