import ApiModel.Proofs.Footprint
import ApiModel.Proofs.Operations
import ApiModel.Proofs.Reachable
import ApiModel.Proofs.Scopes

/-!
Names without brackets. The types that lookups add where templates are tame bear other names, so
that plain names lead where they led before, as long as all typedefs and used namespaces of the
model are its own.
-/

namespace ApiModel

theorem Name.no_bracket_normalizeQuery {query : String} (h : '<' ∉ query.toList) :
    '<' ∉ (normalizeQuery query).toList := fun hmem => by
  obtain hquery | hcolon | hletter := mem_of_mem_normalizeQuery hmem
  · exact h hquery
  · exact absurd hcolon (by decide)
  · exact absurd hletter (by decide)

namespace Model

variable {p : Policy} {tame : Prop} {n : Nat} {m m' : Model} {scope s id : TypeId} {name : String}
  {search : Search} {follow : Bool} {ty : TypeRef}

/-- Typedefs lead to types of the model, and used namespaces are nodes of it. -/
def SelfContained (m : Model) : Prop :=
  ∀ node ∈ m.nodes.toList, ∀ a ∈ node.scope?,
    (∀ ty ∈ a.typeAliases.values, m.Knows ty.base) ∧ ∀ id ∈ a.used, m.Knows id

instance (m : Model) : Decidable m.SelfContained := by unfold SelfContained; infer_instance

def RefersInside (m : Model) (a : Scope) : Prop :=
  (∀ name ty, a.typeAliases.get? name = some ty → m.Knows ty.base) ∧ ∀ id ∈ a.used, m.Knows id

theorem refersInside_empty : m.RefersInside {} := by
  refine ⟨fun _ _ hty => ?_, List.forall_mem_nil _⟩
  cases hty

theorem selfContained_iff : m.SelfContained ↔ ∀ s a, m.scope? s = some a → m.RefersInside a := by
  constructor
  · intro h s a hs
    obtain ⟨haliases, hused⟩ := h _ (node_mem_toList (knows_of_scope hs)) a hs
    exact ⟨fun name ty hty => haliases ty (OrderedMap.mem_values_of_get? hty), hused⟩
  · intro h node hnode a ha
    obtain ⟨i, hi, rfl⟩ := List.mem_iff_getElem.mp hnode
    have hs : m.scope? ⟨i⟩ = some a := by
      have hi' : i < m.nodes.size := hi
      rw [scope?, Model.node, Array.getD_eq_getD_getElem?, Array.getElem?_eq_getElem hi',
        Option.getD_some]
      exact ha
    obtain ⟨haliases, hused⟩ := h ⟨i⟩ a hs
    refine ⟨fun ty hty => ?_, hused⟩
    obtain ⟨⟨name, ty⟩, he, rfl⟩ := List.mem_map.mp hty
    exact haliases name ty (OrderedMap.get?_eq_some_iff.mpr he)

namespace SelfContained

theorem refersInside (h : m.SelfContained) (s : TypeId) : m.RefersInside (m.members s) := by
  cases hs : m.scope? s with
  | none =>
    rw [members, hs]
    exact refersInside_empty
  | some a =>
    rw [members_of_scope hs]
    exact selfContained_iff.mp h s a hs

theorem aliased (h : m.SelfContained) (hty : (m.members s).typeAliases.get? name = some ty) :
    m.Knows ty.base := (h.refersInside s).1 name ty hty

theorem used (h : m.SelfContained) (hid : id ∈ (m.members s).used) : m.Knows id :=
  (h.refersInside s).2 id hid

/-- Lookups add no further names and use no more namespaces. -/
theorem grows (h : m.SelfContained) (he : Grows tame n m m') : m'.SelfContained := by
  refine selfContained_iff.mpr fun s a hs => ?_
  have hmembers := he.members s
  rw [members_of_scope hs] at hmembers
  refine ⟨fun name ty hty => ?_, fun id hid => ?_⟩
  · exact he.knows (h.aliased (hmembers.ofAliased hty))
  · rw [hmembers.used] at hid
    exact he.knows (h.used hid)

end SelfContained

theorem ScopeStep.refersInside {a b : Scope} (hp : p.ownTypedefs) (h : ScopeStep p m s a b)
    (hknows : ∀ id, m.Knows id → m'.Knows id) (ha : m'.RefersInside a) : m'.RefersInside b := by
  cases h with
  | @typeEntered entity id _ aliasName =>
    unfold Scope.enterType
    cases halias : entity.aliasName with
    | none => exact ha
    | some text =>
      refine ⟨fun name ty hty => ?_, ha.2⟩
      rw [OrderedMap.get?_insert] at hty
      split at hty
      · -- only nodes of the model have aliases
        cases hty
        refine hknows id (by_contra fun hk => ?_)
        rw [node_of_not_knows hk, halias] at aliasName
        cases aliasName
      · exact ha.1 name ty hty
  | typeRemoved name id =>
    refine ⟨fun name ty hty => ?_, ha.2⟩
    rw [Scope.removeType, OrderedMap.get?_filter] at hty
    exact ha.1 name ty (Option.filter_eq_some_iff.mp hty).1
  | typedefAdded _ own =>
    refine ⟨fun name ty hty => ?_, ha.2⟩
    rw [OrderedMap.get?_insert] at hty
    split at hty
    · cases hty
      exact hknows _ (own hp)
    · exact ha.1 name ty hty
  | @usedAdded used known =>
    unfold Scope.use
    split
    · exact ha
    · refine ⟨ha.1, fun id hid => ?_⟩
      obtain hid | hid := List.mem_append.mp hid
      · exact ha.2 id hid
      · obtain rfl := List.mem_singleton.mp hid
        exact hknows id known
  | pathsWritten | operationAdded | constantAdded | attributeAdded | parentAdded => exact ha

theorem Change.selfContained (hp : p.ownTypedefs) (h : Change p m m') (hm : m.SelfContained) :
    m'.SelfContained := by
  have hknows : ∀ id, m.Knows id → m'.Knows id := fun _ hk => Nat.lt_of_lt_of_le hk h.size_le
  refine selfContained_iff.mpr (h.forall_scope (fun _ => refersInside_empty)
    (fun s a b ha hstep => hstep.refersInside hp hknows ha) fun s a ha => ?_)
  obtain ⟨haliases, hused⟩ := selfContained_iff.mp hm s a ha
  exact ⟨fun name ty hty => hknows _ (haliases name ty hty), fun id hid => hknows id (hused id hid)⟩

theorem Reachable.selfContained (h : Reachable p m) (hp : p.ownTypedefs) : m.SelfContained := by
  refine h.induct (fun {config root} _ hroot => ?_) fun _ hm hc => hc.selfContained hp hm
  refine selfContained_iff.mpr fun s a hs => ?_
  rw [scope?_rootOnly hroot hs]
  exact refersInside_empty

theorem Denotes.knows (h : m.Denotes name ty) (ht : m.IsTree) (hc : m.SelfContained) :
    m.Knows ty.base := by
  induction h with
  | type listed => exact knows_of_owner (ht.listed listed).2
  | typeAlias hs listed =>
    rw [← members_of_scope hs] at listed
    exact hc.aliased listed
  | parts _ _ _ _ ih => exact ih

theorem findInUsed_eq_members (m : Model)
    (shorter : TypeId → String → Search → Bool → Option TypeRef) (scope : TypeId)
    (name : String) : m.findInUsed shorter scope name = (m.members scope).used.findSome? fun id =>
      m.findInside shorter id name .local false := by
  rw [findInUsed, members]
  cases m.scope? scope <;> rfl

namespace Grows

theorem isNone_scope? (he : Grows tame n m m') (hs : s.index < n) :
    (m'.scope? s).isNone = (m.scope? s).isNone := by
  have hsame : (m'.scope? s).isSome = (m.scope? s).isSome := (he.identity s hs).isContainer
  rw [← Option.not_isSome, ← Option.not_isSome, hsame]

section

variable {shorter shorter' : TypeId → String → Search → Bool → Option TypeRef}

variable (he : Grows tame m.size m m') (ht : tame) (hc : m.SelfContained) (htree : m.IsTree)
  (hsame : ∀ s part search follow, m.Knows s → '<' ∉ part.toList →
    shorter' s part search follow = shorter s part search follow)
  (hknown : ∀ s part search follow ty, shorter s part search follow = some ty → m.Knows ty.base)

include he ht hc htree hsame hknown

theorem findInside_eq (hk : m.Knows scope) (hname : '<' ∉ name.toList) :
    m'.findInside shorter' scope name search follow =
      m.findInside shorter scope name search follow := by
  have hsome := he.isNone_scope? hk
  unfold findInside
  cases hs : m.scope? scope with
  | none =>
    rw [hs, Option.isNone_none, Option.isNone_iff_eq_none] at hsome
    rw [hsome]
  | some a =>
    cases hs' : m'.scope? scope with
    | none => simp [hs, hs'] at hsome
    | some b =>
      have hkept := he.members scope
      rw [members_of_scope hs, members_of_scope hs'] at hkept
      have haliases : b.typeAliases.get? name = a.typeAliases.get? name := by
        refine Option.ext fun ty => ⟨hkept.ofAliased, fun h => hkept.aliased ?_ h⟩
        rw [← members_of_scope hs] at h
        exact hc.aliased h
      dsimp only
      rw [hkept.plain ht hname, haliases]
      congr 2
      cases hcut : Path.splitFirst? name with
      | none => rfl
      | some parts =>
        obtain ⟨head, tail⟩ := parts
        rw [Path.splitFirst?_eq_some hcut] at hname
        simp only [List.mem_append, List.mem_cons, not_or] at hname
        dsimp only
        rw [hsame scope head search follow hk hname.1]
        split
        · next outer houter =>
          refine hsame outer tail .local true ?_ hname.2.2.2
          split at houter
          · cases houter
            exact htree.knows_root
          · exact hknown _ _ _ _ _ houter
        · rfl

theorem findInUsed_eq (hname : '<' ∉ name.toList) :
    m'.findInUsed shorter' scope name = m.findInUsed shorter scope name := by
  rw [findInUsed_eq_members, findInUsed_eq_members, (he.members scope).used]
  have hused : ∀ id ∈ (m.members scope).used, m.Knows id := fun id => hc.used
  generalize (m.members scope).used = used at hused
  induction used with
  | nil => rfl
  | cons id used ih =>
    obtain ⟨hk, hused⟩ := List.forall_mem_cons.mp hused
    rw [List.findSome?_cons, List.findSome?_cons, ih hused,
      he.findInside_eq ht hc htree hsame hknown hk hname]

/-- The scopes around a known one stay, so that any numbers of climbs that reach the last of them
agree. -/
theorem findFrom_eq {rank : TypeId → Nat} (hrank : IsRank m.Owned m.size rank)
    {climbs climbs' : Nat} (hclimbs : rank scope ≤ climbs) (hclimbs' : rank scope ≤ climbs')
    (hk : m.Knows scope) (hname : '<' ∉ name.toList) :
    m'.findFrom shorter' name climbs' scope search follow =
      m.findFrom shorter name climbs scope search follow := by
  induction climbs using Nat.strong_induction_on generalizing scope climbs' search follow with
  | _ climbs ih =>
  unfold findFrom
  have howner : m'.owner? scope = m.owner? scope := (he.identity scope hk).owner
  rw [he.isNone_scope? hk, he.findInside_eq ht hc htree hsame hknown hk hname,
    he.findInUsed_eq ht hc htree hsame hknown hname, howner]
  congr 3
  cases ho : m.owner? scope with
  | none => cases climbs <;> cases climbs' <;> cases search <;> rfl
  | some owner =>
    have hlt := hrank.lt ho
    obtain ⟨climbs, rfl⟩ : ∃ c, climbs = c + 1 := ⟨climbs - 1, by omega⟩
    obtain ⟨climbs', rfl⟩ : ∃ c, climbs' = c + 1 := ⟨climbs' - 1, by omega⟩
    cases search with
    | «local» => rfl
    | owners =>
      exact ih climbs (Nat.lt_succ_self _) (by omega) (by omega) (htree.owner_known ho)

end

theorem findPlain_eq (he : Grows tame m.size m m') (ht : tame) (hc : m.SelfContained)
    (htree : m.IsTree) (hk : m.Knows scope) (hname : '<' ∉ name.toList) :
    m'.findPlain scope name search follow = m.findPlain scope name search follow := by
  obtain ⟨rank, hrank⟩ := htree.exists_rank
  have hbelow : ∀ bound scope name search follow, m.Knows scope → '<' ∉ name.toList →
      m'.findBelow bound scope name search follow = m.findBelow bound scope name search follow := by
    intro bound
    induction bound with
    | zero => exact fun _ _ _ _ _ _ => rfl
    | succ bound ih =>
      intro scope name search follow hk hname
      refine he.findFrom_eq ht hc htree ih (fun s part search follow ty hty => ?_) hrank
        (hrank.le scope) ((hrank.le scope).trans he.size_le) hk hname
      exact (denotes_of_findBelow hty).knows htree hc
  exact hbelow _ scope name search follow hk hname

theorem findTemplate_eq (he : Grows tame m.size m m') (ht : tame) (hc : m.SelfContained)
    (htree : m.IsTree) (hk : m.Knows scope) (hname : '<' ∉ name.toList) :
    m'.findTemplate scope name search = m.findTemplate scope name search := by
  unfold findTemplate
  rw [he.findPlain_eq ht hc htree hk (Name.no_bracket_normalizeQuery hname)]
  split
  · next id hid =>
    rw [(he.identity id ((denotes_of_findPlain hid).knows htree hc)).isTemplate]
  · rfl

end Grows

end Model

end ApiModel
