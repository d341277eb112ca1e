import ApiModel.Proofs.Continuing
import ApiModel.Proofs.PathParts
import ApiModel.Proofs.Unqualified

/-!
Searches come to an end. Here a search goes on until it has an answer: from a name to the parts of
it, from a scope to the namespaces that it uses, and from there to the scope around it. All that
bounds it is how deep its calls may go, and where they go deeper there is no answer. Parts are
shorter than the name, what a used namespace uses itself is not asked, and the scopes around lead to
the root. So the calls of each search go only so deep, also where namespaces use each other, and it
answers what the search with bounds of its own does.
-/

namespace ApiModel

@[simp] theorem Path.parent_baseName (name : String) : parent (baseName name) = "" := by
  rw [parent, cutLast_of_mem_components (baseName_mem_components name)]

theorem Path.length_parent_lt {name : String} (h : parent name ≠ "") :
    (parent name).length < name.length := by
  have hlength := congrArg String.length (qualify_parent_baseName h)
  rw [qualify, if_neg h, String.length_append, String.length_append] at hlength
  have hseparator : "::".length = 2 := rfl
  omega

namespace Model

/-- The answer of a search for a type; there is none if its calls go deeper than `depth`. -/
def searchTypeTo (m : Model) : (depth : Nat) → (scope : TypeId) → (name : String) →
    (search : Search) → (follow : Bool) → Option (Option TypeRef)
  | 0, _, _, _, _ => none
  | depth + 1, scope, name, search, follow =>
    match m.scope? scope with
    | none => some none
    | some members =>
      match members.binding? name with
      | some found => some (some found)
      | none =>
        (match Path.splitFirst? name with
          | none => some none
          | some (head, tail) =>
            (if head = "" then some (some (.raw .root))
              else searchTypeTo m depth scope head search follow)
            >>= fun
              | some (.raw outer) => searchTypeTo m depth outer tail .local true
              | _ => some none : Option (Option TypeRef))
        >>= fun
          | some found => some (some found)
          | none =>
            (if follow then
                members.used.findSomeM? fun id => searchTypeTo m depth id name .local false
              else some none)
            >>= fun
              | some found => some (some found)
              | none =>
                match search, m.owner? scope with
                | .owners, some owner => searchTypeTo m depth owner name .owners true
                | _, _ => some none

def searchConstantTo (m : Model) : (depth : Nat) → (scope : TypeId) → (name : String) →
    (search : Search) → (follow : Bool) → Option (Option Constant)
  | 0, _, _, _, _ => none
  | depth + 1, scope, name, search, follow =>
    match m.scope? scope with
    | none => some none
    | some members =>
      match members.constants.get? name with
      | some found => some (some found)
      | none =>
        (if Path.parent name = "" then some none
          else m.searchTypeTo depth scope (Path.parent name) search follow >>= fun
            | some (.raw outer) => searchConstantTo m depth outer (Path.baseName name) .local true
            | _ => some none)
        >>= fun
          | some found => some (some found)
          | none =>
            (if follow then
                members.used.findSomeM? fun id => searchConstantTo m depth id name .local false
              else some none)
            >>= fun
              | some found => some (some found)
              | none =>
                match search, m.owner? scope with
                | .owners, some owner => searchConstantTo m depth owner name .owners true
                | _, _ => some none

/-- How deep the calls of a search go at most: for each length of a name they climb to the root, and
from there they ask a namespace that is used. -/
def searchDepth (m : Model) (name : String) : Nat := (name.length + 1) * (m.size + 2)

variable {m : Model} {p : Policy} {s : TypeId} {name part : String} {search : Search}
  {follow : Bool} {depth : Nat}

theorem searchDepth_eq (m : Model) (name : String) :
    m.searchDepth name = name.length * (m.size + 2) + (m.size + 2) := Nat.succ_mul _ _

/-- Searches for what is shorter need not go as deep. -/
theorem searchDepth_le_of_length_lt (h : part.length < name.length) :
    m.searchDepth part ≤ name.length * (m.size + 2) := Nat.mul_le_mul_right _ h

/-- What each call of a search has if the calls do that it makes, all calls have that may go deep
enough. The induction goes from the scopes that are asked alone to those with what they use and with
what is around them. -/
theorem search_induction (ht : m.IsTree) {base : Nat}
    {P : (depth : Nat) → TypeId → Search → Bool → Prop}
    (calls : ∀ {depth s search follow}, base ≤ depth →
      (follow = true → ∀ id, P depth id .local false) →
      (∀ owner, search = .owners → m.owner? s = some owner → P depth owner .owners true) →
      P (depth + 1) s search follow)
    (hdepth : base + (m.size + 2) ≤ depth) (s : TypeId) (search : Search) (follow : Bool) :
    P depth s search follow := by
  obtain ⟨rank, hrank⟩ := ht.exists_rank
  have halone : ∀ {depth}, base < depth → ∀ s, P depth s .local false := by
    intro depth hlt s
    obtain ⟨depth, rfl⟩ := Nat.exists_eq_add_one_of_ne_zero (Nat.ne_zero_of_lt hlt)
    exact calls (Nat.lt_succ_iff.mp hlt) nofun nofun
  have hle := hrank.le s
  have hclimb : base + rank s + 2 ≤ depth := by omega
  clear hdepth hle
  induction s using ht.owner_induction generalizing search follow depth with
  | h s ihowner =>
  obtain ⟨depth, rfl⟩ : ∃ d, depth = d + 1 := ⟨depth - 1, by omega⟩
  refine calls (by omega) (fun _ => halone (by omega)) fun owner _ ho => ?_
  have hlt := hrank.lt ho
  exact ihowner owner ho .owners true (by omega)

theorem findSomeM?_eq_some {α : Type} {f : TypeId → Option (Option α)} {g : TypeId → Option α}
    (h : ∀ id, f id = some (g id)) (used : List TypeId) :
    used.findSomeM? f = some (used.findSome? g) := by
  induction used with
  | nil => rfl
  | cons id used ih =>
    rw [List.findSomeM?_cons, List.findSome?_cons, h]
    cases g id with
    | none => exact ih
    | some found => rfl

theorem bind_eq_some_or {α : Type} {stage : Option (Option α)} {rest : Option α → Option (Option α)}
    {hit hit' : Option α} (hstage : stage = some hit)
    (hhit : ∀ found, rest (some found) = some found) (hrest : rest none = some hit') :
    stage >>= rest = some (hit.or hit') := by
  subst hstage
  cases hit with
  | some found => exact hhit found
  | none => exact hrest

def findByParts (m : Model) (scope : TypeId) (name : String) (search : Search) (follow : Bool) :
    Option TypeRef :=
  (Path.splitFirst? name).bind fun (head, tail) =>
    m.findBehind tail
      (if head = "" then some (.raw .root) else m.findPlain scope head search follow)

theorem findPlain_of_scope {members : Scope} (ht : m.IsTree) (hs : m.scope? s = some members) :
    m.findPlain s name search follow = (members.binding? name).or
      ((m.findByParts s name search follow).or
        ((if follow then members.used.findSome? fun id => m.findPlain id name .local false
          else none).or (m.findAround s name search))) := by
  have hinside : m.findInside m.findPlain s name search follow =
      (members.binding? name).or (m.findByParts s name search follow) := by
    rw [findInside, hs, findByParts, Scope.binding?, Option.or_assoc]
    cases Path.splitFirst? name <;> rfl
  have hused : m.findInUsed m.findPlain s name =
      members.used.findSome? fun id => m.findPlain id name .local false := by
    rw [findInUsed_eq_members, members_of_scope hs]
    simp only [findPlain_inside ht]
  rw [findPlain_unfold ht, hs, Option.isNone_some, if_neg Bool.false_ne_true, hinside, hused,
    Option.or_assoc]

/-- A search for a type answers, if the searches do that it goes on with: for parts of the name, in
what the scope uses, and around it. -/
theorem searchTypeTo_of_calls (ht : m.IsTree)
    (hparts : ∀ s part search follow, part.length < name.length →
      m.searchTypeTo depth s part search follow = some (m.findPlain s part search follow))
    (hused : follow = true → ∀ id,
      m.searchTypeTo depth id name .local false = some (m.findPlain id name .local false))
    (haround : ∀ owner, search = .owners → m.owner? s = some owner →
      m.searchTypeTo depth owner name .owners true = some (m.findPlain owner name .owners true)) :
    m.searchTypeTo (depth + 1) s name search follow = some (m.findPlain s name search follow) := by
  rw [searchTypeTo.eq_def]
  dsimp only
  cases hs : m.scope? s with
  | none => simp [findPlain_unfold ht, hs]
  | some members =>
  rw [findPlain_of_scope ht hs]
  dsimp only
  cases members.binding? name with
  | some found => rfl
  | none =>
  rw [Option.none_or]
  refine bind_eq_some_or ?_ (fun _ => rfl) (bind_eq_some_or ?_ (fun _ => rfl) ?_)
  · rw [findByParts]
    cases hcut : Path.splitFirst? name with
    | none => rfl
    | some parts =>
      obtain ⟨head, tail⟩ := parts
      have hlength := Path.length_of_splitFirst? hcut
      have hhead : (if head = "" then some (some (.raw .root))
          else m.searchTypeTo depth s head search follow) =
          some (if head = "" then some (.raw .root) else m.findPlain s head search follow) := by
        split_ifs
        · rfl
        · exact hparts s head search follow (by omega)
      dsimp only
      rw [hhead, Option.bind_some]
      cases (if head = "" then some (.raw .root) else m.findPlain s head search follow) with
      | none => rfl
      | some outer =>
        cases outer with
        | raw outer => exact hparts outer tail .local true (by omega)
        | _ => rfl
  · cases follow with
    | false => rfl
    | true => exact findSomeM?_eq_some (hused rfl) members.used
  · unfold findAround
    cases search with
    | «local» => rfl
    | owners =>
      cases ho : m.owner? s with
      | none => rfl
      | some owner => exact haround owner rfl ho

/-- Searches for types come to an end, by induction on the length of the name. -/
theorem searchTypeTo_eq (ht : m.IsTree) (s : TypeId) (name : String) (search : Search)
    (follow : Bool) (hdepth : m.searchDepth name ≤ depth) :
    m.searchTypeTo depth s name search follow = some (m.findPlain s name search follow) := by
  induction hlength : name.length using Nat.strong_induction_on
    generalizing s name search follow depth with
  | _ length ih =>
  subst hlength
  rw [searchDepth_eq] at hdepth
  refine search_induction (P := fun depth s search follow =>
    m.searchTypeTo depth s name search follow = some (m.findPlain s name search follow))
    ht (fun hle hused haround => searchTypeTo_of_calls ht ?_ hused haround) hdepth s search follow
  intro s part search follow hpart
  exact ih _ hpart s part search follow ((searchDepth_le_of_length_lt hpart).trans hle) rfl

def findConstantAround (m : Model) (scope : TypeId) (name : String) (search : Search) :
    Option Constant :=
  match search, m.owner? scope with
  | .owners, some owner => m.findConstantFrom name m.size owner .owners
  | _, _ => none

def findConstantPlain (m : Model) (scope : TypeId) (name : String) (search : Search)
    (follow : Bool) : Option Constant :=
  (m.scope? scope).bind fun members =>
    (m.findConstantInside scope name search follow).or
      ((if follow then members.used.findSome? fun id => m.findConstantInside id name .local false
        else none).or (m.findConstantAround scope name search))

theorem findConstantFrom_congr {rank : TypeId → Nat} (hrank : IsRank m.Owned m.size rank)
    {climbs climbs' : Nat} (hclimbs : rank s ≤ climbs) (hclimbs' : rank s ≤ climbs') :
    m.findConstantFrom name climbs' s search = m.findConstantFrom name climbs s search := by
  induction climbs using Nat.strong_induction_on generalizing s climbs' search with
  | _ climbs ih =>
  unfold findConstantFrom
  cases m.scope? s with
  | none => rfl
  | some members =>
  dsimp only
  congr 2
  cases ho : m.owner? s with
  | none => cases climbs <;> cases climbs' <;> cases search <;> rfl
  | some owner =>
    have hlt := hrank.lt ho
    obtain ⟨climbs, rfl⟩ : ∃ c, climbs = c + 1 := ⟨climbs - 1, by omega⟩
    obtain ⟨climbs', rfl⟩ : ∃ c, climbs' = c + 1 := ⟨climbs' - 1, by omega⟩
    cases search with
    | «local» => rfl
    | owners => exact ih climbs (Nat.lt_succ_self _) (by omega) (by omega)

theorem findConstantPlain_follow (ht : m.IsTree) (s : TypeId) (name : String) (search : Search) :
    m.findConstantPlain s name search true = m.findConstantFrom name m.size s search := by
  obtain ⟨rank, hrank⟩ := ht.exists_rank
  rw [findConstantPlain, findConstantFrom.eq_def]
  dsimp only
  cases m.scope? s with
  | none => rfl
  | some members =>
  dsimp only [Option.bind_some]
  rw [if_pos rfl]
  congr 2
  unfold findConstantAround
  cases ho : m.owner? s with
  | none => cases m.size <;> cases search <;> rfl
  | some owner =>
    have hlt := hrank.lt ho
    have hle := hrank.le s
    obtain ⟨climbs, hsize⟩ : ∃ c, m.size = c + 1 := ⟨m.size - 1, by omega⟩
    rw [hsize]
    cases search with
    | «local» => rfl
    | owners => exact findConstantFrom_congr hrank (by omega) (by omega)

theorem findConstantInside_of_not_container (ht : m.IsTree) (hs : m.scope? s = none) :
    m.findConstantInside s name search follow = none := by
  have htype : m.findPlain s (Path.parent name) search follow = none := by
    rw [findPlain_unfold ht, hs]
    rfl
  rw [findConstantInside, constant?, hs, htype]
  simp

theorem findConstantPlain_alone (ht : m.IsTree) (s : TypeId) (name : String) :
    m.findConstantPlain s name .local false = m.findConstantInside s name .local false := by
  rw [findConstantPlain]
  cases hs : m.scope? s with
  | none => exact (findConstantInside_of_not_container ht hs).symm
  | some members => simp [findConstantAround]

theorem findConstantPlain_near (hp : Path.parent name = "") (s : TypeId) :
    m.findConstantPlain s name .local true = m.findConstantNear s name := by
  rw [findConstantPlain, findConstantNear]
  simp only [findConstantInside_of_parent hp]
  cases hs : m.scope? s with
  | none => simp [constant?, hs]
  | some members => simp [findConstantAround]

theorem searchConstantTo_of_calls (ht : m.IsTree)
    (hparent : Path.parent name ≠ "" → m.searchDepth (Path.parent name) ≤ depth)
    (hbase : Path.parent name ≠ "" → ∀ outer,
      m.searchConstantTo depth outer (Path.baseName name) .local true =
        some (m.findConstantPlain outer (Path.baseName name) .local true))
    (hused : follow = true → ∀ id,
      m.searchConstantTo depth id name .local false =
        some (m.findConstantPlain id name .local false))
    (haround : ∀ owner, search = .owners → m.owner? s = some owner →
      m.searchConstantTo depth owner name .owners true =
        some (m.findConstantPlain owner name .owners true)) :
    m.searchConstantTo (depth + 1) s name search follow =
      some (m.findConstantPlain s name search follow) := by
  rw [searchConstantTo.eq_def, findConstantPlain, findConstantInside, constant?]
  dsimp only
  cases hs : m.scope? s with
  | none => rfl
  | some members =>
  simp only [Option.bind_some, Option.or_assoc]
  cases members.constants.get? name with
  | some found => rfl
  | none =>
  rw [Option.none_or]
  refine bind_eq_some_or ?_ (fun _ => rfl) (bind_eq_some_or ?_ (fun _ => rfl) ?_)
  · split_ifs with hp
    · rfl
    · rw [searchTypeTo_eq ht _ _ _ _ (hparent hp)]
      cases m.findPlain s (Path.parent name) search follow with
      | none => rfl
      | some outer =>
        cases outer with
        | raw outer =>
          have hnear := hbase hp outer
          rw [findConstantPlain_near (Path.parent_baseName name)] at hnear
          exact hnear
        | _ => rfl
  · cases follow with
    | false => rfl
    | true =>
      simp only [← findConstantPlain_alone ht]
      exact findSomeM?_eq_some (hused rfl) members.used
  · unfold findConstantAround
    cases search with
    | «local» => rfl
    | owners =>
      cases ho : m.owner? s with
      | none => rfl
      | some owner =>
        have howner := haround owner rfl ho
        rw [findConstantPlain_follow ht] at howner
        exact howner

/-- Searches for constants come to an end: first those for a last part, which has no path in front
of it, and then all. -/
theorem searchConstantTo_eq (ht : m.IsTree) (s : TypeId) (name : String) (search : Search)
    (follow : Bool) (hdepth : m.searchDepth name ≤ depth) :
    m.searchConstantTo depth s name search follow =
      some (m.findConstantPlain s name search follow) := by
  have hlast : ∀ {depth}, m.size + 2 ≤ depth → ∀ outer,
      m.searchConstantTo depth outer (Path.baseName name) .local true =
        some (m.findConstantPlain outer (Path.baseName name) .local true) := by
    intro depth hdepth outer
    have hp := Path.parent_baseName name
    rw [← Nat.zero_add (m.size + 2)] at hdepth
    exact search_induction (P := fun depth s search follow =>
      m.searchConstantTo depth s (Path.baseName name) search follow =
        some (m.findConstantPlain s (Path.baseName name) search follow))
      ht (fun _ => searchConstantTo_of_calls ht (absurd hp) (absurd hp)) hdepth outer .local true
  rw [searchDepth_eq] at hdepth
  refine search_induction (P := fun depth s search follow =>
    m.searchConstantTo depth s name search follow =
      some (m.findConstantPlain s name search follow))
    ht (fun {depth} _ _ _ hle => ?_) hdepth s search follow
  have hparent : Path.parent name ≠ "" → m.searchDepth (Path.parent name) ≤ depth := fun hp =>
    (searchDepth_le_of_length_lt (Path.length_parent_lt hp)).trans hle
  refine searchConstantTo_of_calls ht hparent fun hp => hlast (le_trans ?_ (hparent hp))
  rw [searchDepth_eq]
  exact Nat.le_add_left _ _

/-- Each search in a model answers, wherever it begins, whatever the name is made of, and whichever
namespaces use each other: its calls go no deeper than the length of the name and the number of
types let them. It answers what the search with bounds of its own does. -/
theorem Reachable.searches_terminate (h : Reachable p m) (s : TypeId) (name : String)
    (search : Search) (follow : Bool) (hdepth : m.searchDepth name ≤ depth) :
    m.searchTypeTo depth s name search follow = some (m.findPlain s name search follow) ∧
    (m.searchConstantTo depth s name search follow).isSome = true ∧
    m.searchConstantTo depth s name search true = some (m.findConstantFrom name m.size s search) := by
  have ht := h.sound.isTree
  refine ⟨searchTypeTo_eq ht s name search follow hdepth, ?_, ?_⟩
  · rw [searchConstantTo_eq ht s name search follow hdepth]
    rfl
  · rw [searchConstantTo_eq ht s name search true hdepth, findConstantPlain_follow ht]

/-- The namespaces `a` and `b` use each other, and `b` has the class `K`. Names with empty parts and
with brackets that do not match are sought from `a`. -/
theorem searches_terminate_in_cycle : ∃ m, Reachable .free m ∧
    (m.members ⟨1⟩).used = [⟨2⟩] ∧ (m.members ⟨2⟩).used = [⟨1⟩] ∧
    m.searchDepth "::a::::b::K" ≤ 100 ∧ m.searchDepth "::>a::::K<" ≤ 100 ∧
    m.searchTypeTo 100 ⟨1⟩ "::a::::b::K" .owners true = some (some (.raw ⟨3⟩)) ∧
    m.searchTypeTo 100 ⟨1⟩ "::>a::::K<" .owners true = some none ∧
    m.searchConstantTo 100 ⟨1⟩ "::>a::::K<" .owners true = some none := by
  let actions : List Action :=
    [.addNamespace .root "a", .addNamespace .root "b",
     .addType ⟨2⟩ (declaration .classType "" "K") true,
     .useNamespace ⟨1⟩ ⟨2⟩, .useNamespace ⟨2⟩ ⟨1⟩]
  have h : Reachable .free (bare.afterAll actions) := by
    have ha := (reachable_bare (p := .free)).step (.addNamespace .root "a")
      ⟨by unfold Knows; decide +kernel, nofun⟩
    have hb := ha.step (.addNamespace .root "b") ⟨by unfold Knows; decide +kernel, nofun⟩
    have hk := hb.step (.addType ⟨2⟩ (declaration .classType "" "K") true)
      (isFresh_declaration nofun nofun)
    exact (hk.step (.useNamespace ⟨1⟩ ⟨2⟩) trivial).step (.useNamespace ⟨2⟩ ⟨1⟩) trivial
  have hdepth : (bare.afterAll actions).searchDepth "::a::::b::K" ≤ 100 := by decide +kernel
  have hdepth' : (bare.afterAll actions).searchDepth "::>a::::K<" ≤ 100 := by decide +kernel
  have hfound := (h.searches_terminate ⟨1⟩ "::a::::b::K" .owners true hdepth).1
  obtain ⟨htype, -, hconstant⟩ := h.searches_terminate ⟨1⟩ "::>a::::K<" .owners true hdepth'
  exact ⟨_, h, by decide +kernel, by decide +kernel, hdepth, hdepth',
    hfound.trans (by decide +kernel), htype.trans (by decide +kernel),
    hconstant.trans (by decide +kernel)⟩

end Model

end ApiModel
