import ApiModel.Proofs.AbsoluteNames
import ApiModel.Proofs.Searching

/-!
Unqualified names. They are looked up along one chain, from the scope to the root, and in each scope
on the way before the namespaces that it uses; what these use themselves is not asked. The first
scope that has the name gives the result, for types as for constants.
-/

namespace ApiModel.Model

open Relation

variable {p : Policy} {m : Model} {s : TypeId} {name : String} {chain : List TypeId}

inductive OwnerChain (m : Model) : TypeId → List TypeId → Prop
  | root : OwnerChain m .root [.root]
  | member {s owner : TypeId} {chain : List TypeId} (member : m.Member s owner)
      (around : OwnerChain m owner chain) : OwnerChain m s (s :: chain)

theorem Below.exists_ownerChain (h : m.Below s .root) : ∃ chain, m.OwnerChain s chain := by
  induction h using ReflTransGen.head_induction_on with
  | refl => exact ⟨_, .root⟩
  | head member _ ih =>
    obtain ⟨chain, hchain⟩ := ih
    exact ⟨_, .member member hchain⟩

theorem OwnerChain.unique {chain' : List TypeId} (ht : m.IsTree) (h : m.OwnerChain s chain)
    (h' : m.OwnerChain s chain') : chain = chain' := by
  have hroot : ∀ {owner}, ¬ m.Member .root owner := fun hm => by
    have ho := hm.1
    rw [Owned, ht.root_owner] at ho
    cases ho
  induction h generalizing chain' with
  | root =>
    cases h' with
    | root => rfl
    | member hm _ => exact absurd hm hroot
  | member hm _ ih =>
    cases h' with
    | root => exact absurd hm hroot
    | member hm' around =>
      obtain rfl := Owned.unique hm.1 hm'.1
      rw [ih around]

/-- The scopes of a chain, each before the namespaces that it uses. -/
def searchOrder (m : Model) (chain : List TypeId) : List TypeId :=
  chain.flatMap fun scope => scope :: (m.members scope).used

/-- The first hit in the first scope of a chain, in what it uses, or else in the rest. -/
theorem findSome?_searchOrder_cons {α : Type} (f : TypeId → Option α) (s : TypeId)
    (chain : List TypeId) :
    (m.searchOrder (s :: chain)).findSome? f =
      (f s).or (((m.members s).used.findSome? f).or ((m.searchOrder chain).findSome? f)) := by
  rw [searchOrder, List.flatMap_cons, List.cons_append, List.findSome?_cons,
    List.findSome?_append]
  cases f s <;> rfl

@[simp] theorem searchOrder_nil (m : Model) : m.searchOrder [] = [] := rfl

theorem findAround_root (ht : m.IsTree) (name : String) (search : Search) :
    m.findAround .root name search = none := by
  unfold findAround
  rw [ht.root_owner]
  cases search <;> rfl

theorem findPlain_local (ht : m.IsTree) (hdiv : Path.splitFirst? name = none)
    (hc : (m.node s).isContainer = true) :
    m.findPlain s name .local true =
      (m.searchOrder [s]).findSome? fun scope => (m.members scope).binding? name := by
  rw [findPlain_unfold_of_undivided ht hdiv hc, findSome?_searchOrder_cons]
  simp only [findAround, if_true, searchOrder_nil, List.findSome?_nil]

theorem findPlain_owners (ht : m.IsTree) (hdiv : Path.splitFirst? name = none)
    (hchain : m.OwnerChain s chain) (hc : (m.node s).isContainer = true) :
    m.findPlain s name .owners true =
      (m.searchOrder chain).findSome? fun scope => (m.members scope).binding? name := by
  induction hchain with
  | root =>
    rw [findPlain_unfold_of_undivided ht hdiv hc, findSome?_searchOrder_cons, findAround_root ht]
    simp only [if_true, searchOrder_nil, List.findSome?_nil]
  | @member s owner chain member around ih =>
    have haround : m.findAround s name .owners = m.findPlain owner name .owners true := by
      unfold findAround
      rw [member.1]
    rw [findPlain_unfold_of_undivided ht hdiv hc, findSome?_searchOrder_cons, haround,
      ih member.2, if_pos rfl]

/-- The search for a constant with an unqualified name in a scope, in what it uses, and around
it. -/
theorem findConstantFrom_unfold (hp : Path.parent name = "") (hc : (m.node s).isContainer = true)
    (climbs : Nat) (search : Search) :
    m.findConstantFrom name climbs s search = (m.constant? s name).or
      (((m.members s).used.findSome? fun u => m.constant? u name).or
        (match climbs, search, m.owner? s with
        | climbs + 1, .owners, some owner => m.findConstantFrom name climbs owner .owners
        | _, _, _ => none)) := by
  obtain ⟨a, ha⟩ := isContainer_iff.mp hc
  have hused : (a.used.findSome? fun u => m.findConstantInside u name .local false) =
      a.used.findSome? fun u => m.constant? u name := by
    simp only [findConstantInside_of_parent hp]
  rw [findConstantFrom.eq_def, members_of_scope ha]
  dsimp only
  rw [ha]
  exact congrArg₂ Option.or (findConstantInside_of_parent hp) (congrArg₂ Option.or hused rfl)

theorem findConstantFrom_local (hp : Path.parent name = "") (hc : (m.node s).isContainer = true)
    (climbs : Nat) :
    m.findConstantFrom name climbs s .local =
      (m.searchOrder [s]).findSome? fun scope => m.constant? scope name := by
  rw [findConstantFrom_unfold hp hc, findSome?_searchOrder_cons]
  cases climbs <;> rfl

theorem findConstantFrom_owners {rank : TypeId → Nat} (hrank : IsRank m.Owned m.size rank)
    (ht : m.IsTree) (hp : Path.parent name = "") (hchain : m.OwnerChain s chain)
    (hc : (m.node s).isContainer = true) {climbs : Nat} (hclimbs : rank s ≤ climbs) :
    m.findConstantFrom name climbs s .owners =
      (m.searchOrder chain).findSome? fun scope => m.constant? scope name := by
  induction hchain generalizing climbs with
  | root =>
    rw [findConstantFrom_unfold hp hc, findSome?_searchOrder_cons, ht.root_owner]
    cases climbs <;> rfl
  | @member s owner chain member around ih =>
    have hlt := hrank.lt member.1
    obtain ⟨climbs, rfl⟩ : ∃ c, climbs = c + 1 := ⟨climbs - 1, by omega⟩
    have howner : m.owner? s = some owner := member.1
    rw [findConstantFrom_unfold hp hc, findSome?_searchOrder_cons, howner]
    dsimp only
    rw [ih member.2 (by omega)]

/-- An identifier is looked up along the chain from the scope to the root, in each scope before what
it uses, and the first hit counts. A local search has the scope and what it uses only. -/
theorem Reachable.unqualified_lookup (h : Reachable p m) (hs : m.Below s .root)
    (hc : (m.node s).isContainer = true) (hn : Name.IsWord name) :
    ∃ chain, m.OwnerChain s chain ∧
      m.findType s name .owners =
        (m.searchOrder chain).findSome? (fun scope => (m.members scope).binding? name) ∧
      m.findType s name .local =
        (m.searchOrder [s]).findSome? (fun scope => (m.members scope).binding? name) ∧
      m.findConstant s name .owners =
        (m.searchOrder chain).findSome? (fun scope => m.constant? scope name) ∧
      m.findConstant s name .local =
        (m.searchOrder [s]).findSome? fun scope => m.constant? scope name := by
  have ht := h.sound.isTree
  obtain ⟨rank, hrank⟩ := ht.exists_rank
  obtain ⟨chain, hchain⟩ := hs.exists_ownerChain
  have hdiv := hn.isPart.undivided
  have hparent : Path.parent name = "" := by
    rw [Path.parent, hn.isSingle.undivided]
  have htype : ∀ search, m.findType s name search = m.findPlain s name search true :=
    findType_of_plain hn.isPlainPath s
  have hconstant : ∀ search, m.findConstant s name search =
      m.findConstantFrom name m.size s search := fun search => by
    rw [findConstant, Name.normalize_eq_self hn.isNormal]
  refine ⟨chain, hchain, ?_, ?_, ?_, ?_⟩
  · rw [htype, findPlain_owners ht hdiv hchain hc]
  · rw [htype, findPlain_local ht hdiv hc]
  · rw [hconstant, findConstantFrom_owners hrank ht hparent hchain hc (hrank.le s)]
  · rw [hconstant, findConstantFrom_local hparent hc]

/-- From the namespace `n`, the class `A` is found in a namespace that the root uses. -/
theorem unqualified_lookup_of_used : ∃ m, Reachable .free m ∧ m.Below ⟨1⟩ .root ∧
    (m.node ⟨1⟩).isContainer = true ∧ Name.IsWord "A" ∧
    m.findType ⟨1⟩ "A" .owners =
      [⟨1⟩, .root, ⟨2⟩].findSome? (fun scope => (m.members scope).binding? "A") ∧
    m.findType ⟨1⟩ "A" .owners = some (.raw ⟨3⟩) ∧ m.findType ⟨1⟩ "A" .local = none := by
  let actions : List Action :=
    [.addNamespace .root "n", .addNamespace .root "u",
     .addType ⟨2⟩ (declaration .classType "" "A") true, .useNamespace .root ⟨2⟩]
  have h : Reachable .free (bare.afterAll actions) := by
    have hn := (reachable_bare (p := .free)).step (.addNamespace .root "n")
      ⟨by unfold Knows; decide +kernel, nofun⟩
    have hu := hn.step (.addNamespace .root "u") ⟨by unfold Knows; decide +kernel, nofun⟩
    exact (hu.step (.addType ⟨2⟩ (declaration .classType "" "A") true)
      (isFresh_declaration nofun nofun)).step (.useNamespace .root ⟨2⟩) trivial
  have hmember : (bare.afterAll actions).Member ⟨1⟩ .root := by decide +kernel
  have hc : ((bare.afterAll actions).node ⟨1⟩).isContainer = true := by decide +kernel
  have hword : Name.IsWord "A" := by decide +kernel
  obtain ⟨chain, hchain, howners, -⟩ := h.unqualified_lookup (.single hmember) hc hword
  obtain rfl := hchain.unique h.sound.isTree (.member hmember .root)
  have horder : (bare.afterAll actions).searchOrder [⟨1⟩, .root] = [⟨1⟩, .root, ⟨2⟩] := by
    decide +kernel
  rw [horder] at howners
  exact ⟨_, h, .single hmember, hc, hword, howners, by decide +kernel, by decide +kernel⟩

end ApiModel.Model
