import ApiModel.Proofs.Continuing
import ApiModel.Proofs.DeclaredNames

/-!
Qualified names. A path is looked up in two steps, first its beginning and then the rest in the type
that the beginning leads to. The search for the whole path continues the search for its beginning,
so none of the places before the hit, and none behind it, can give another type.
-/

namespace ApiModel

namespace Name

variable {path : String}

inductive IsWordPath : String → Prop
  | word {word : String} (isWord : IsWord word) : IsWordPath word
  | qualified {word rest : String} (isWord : IsWord word) (path : IsWordPath rest) :
      IsWordPath (word ++ "::" ++ rest)

theorem IsWordPath.isPlainPath (h : IsWordPath path) : IsPlainPath path := by
  induction h with
  | word isWord => exact isWord.isPlainPath
  | qualified isWord _ ih => exact isWord.isPlainPath.join ih

inductive IsQualifier : String → Prop
  | relative {path : String} (words : IsWordPath path) : IsQualifier path
  | absolute {path : String} (words : IsWordPath path) : IsQualifier ("::" ++ path)

theorem IsQualifier.isPlainPath (h : IsQualifier path) : IsPlainPath path := by
  cases h with
  | relative words => exact words.isPlainPath
  | absolute words => exact words.isPlainPath.absolute

end Name

namespace Model

variable {p : Policy} {m : Model} {s : TypeId} {head rest tail name : String} {search : Search}
  {follow : Bool} {steps : List (Model × Action)}

def KeysUndivided (m : Model) : Prop := ∀ s name, (m.members s).IsKey name → Name.IsUndivided name

/-- No typedef and no alias of a type has a separator in its name. -/
def AliasesUndivided (m : Model) : Prop :=
  ∀ s name, ((m.members s).typeAliases.get? name).isSome → ¬ "::".toList <:+: name.toList

theorem TypesUndivided.keysUndivided (h : m.TypesUndivided) (ht : m.IsTree)
    (ha : m.AliasesUndivided) : m.KeysUndivided := by
  rintro s name (hkey | hkey)
  · obtain ⟨id, hid⟩ := Option.isSome_iff_exists.mp hkey
    rw [← type?_eq_get?_members] at hid
    rw [← (ht.listed hid).1]
    exact h id
  · refine .inr (Option.eq_none_iff_forall_ne_some.mpr fun ⟨head, tail⟩ hcut => ?_)
    have hname : name.toList = head.toList ++ "::".toList ++ tail.toList := by
      rw [Path.splitFirst?_eq_some hcut, List.append_assoc]
      rfl
    exact ha s name hkey ⟨head.toList, tail.toList, hname.symm⟩

theorem KeysUndivided.unlisted (h : m.KeysUndivided) (hb : '<' ∉ name.toList)
    (hcut : Path.splitFirst? name = some (head, rest)) : m.Unlisted name := by
  intro s
  by_contra hne
  obtain ⟨ty, hty⟩ := Option.ne_none_iff_exists'.mp hne
  obtain hbracket | hnone := h s name (Scope.isKey_iff.mpr ⟨ty, hty⟩)
  · exact hb hbracket
  · rw [hnone] at hcut
    cases hcut

section

variable (ht : m.IsTree) (hk : m.KeysUndivided)
include ht hk

/-- Both searches go to where the first word leads, and from there on with paths of which the one
continues the other. -/
theorem continues_words {path : String} (hpath : Name.IsWordPath path)
    (htail : Name.IsWordPath tail) (s : TypeId) (search : Search) (follow : Bool) :
    m.Continues tail (m.findPlain s path search follow)
      (m.findPlain s (path ++ "::" ++ tail) search follow) := by
  induction hpath generalizing s search follow with
  | @word word isWord =>
    have hcut := isWord.isPart.splitFirst? tail
    have hno := hk.unlisted (isWord.isPlainPath.join htail.isPlainPath).no_bracket hcut
    exact continues_first ht hno hcut isWord.ne_empty s search follow
  | @qualified word rest isWord words ih =>
    have hpath := isWord.isPlainPath.join words.isPlainPath
    have hcut := isWord.isPart.splitFirst? rest
    have hcut' : Path.splitFirst? (word ++ "::" ++ rest ++ "::" ++ tail) =
        some (word, rest ++ "::" ++ tail) := by
      simpa only [String.append_assoc] using isWord.isPart.splitFirst? (rest ++ "::" ++ tail)
    exact .of_parts ht (hk.unlisted hpath.no_bracket hcut)
      (hk.unlisted (hpath.join htail.isPlainPath).no_bracket hcut') hcut hcut'
      (fun outer => ih outer .local true) s search follow

theorem continues_qualifier {path : String} (hpath : Name.IsQualifier path)
    (htail : Name.IsWordPath tail) (s : TypeId) (search : Search) (follow : Bool) :
    m.Continues tail (m.findPlain s path search follow)
      (m.findPlain s (path ++ "::" ++ tail) search follow) := by
  cases hpath with
  | relative words => exact continues_words ht hk words htail s search follow
  | @absolute path words =>
    have hpath := words.isPlainPath.absolute
    have hcut := Path.splitFirst?_separator path
    have hcut' : Path.splitFirst? ("::" ++ path ++ "::" ++ tail) =
        some ("", path ++ "::" ++ tail) := by
      simpa only [String.append_assoc] using Path.splitFirst?_separator (path ++ "::" ++ tail)
    exact .of_parts ht (hk.unlisted hpath.no_bracket hcut)
      (hk.unlisted (hpath.join htail.isPlainPath).no_bracket hcut') hcut hcut'
      (fun outer => continues_words ht hk words htail outer .local true) s search follow

end

/-- If the beginning of a path leads to a type and the rest leads on from there, the path leads to
where the rest leads; and if the beginning leads nowhere, neither does the path. -/
theorem History.qualified_lookup (h : History p steps m)
    (hd : ∀ step ∈ steps, step.2.DeclaresName) (ha : m.AliasesUndivided)
    (hhead : Name.IsQualifier head) (htail : Name.IsWordPath tail) (s : TypeId)
    (search : Search) :
    (∀ outer ty, m.findType s head search = some (.raw outer) →
      m.findType outer tail .local = some ty →
      m.findType s (head ++ "::" ++ tail) search = some ty) ∧
    (m.findType s head search = none → m.findType s (head ++ "::" ++ tail) search = none) := by
  have ht := h.reachable.sound.isTree
  have hk := (h.typesUndivided hd).keysUndivided ht ha
  have hcontinues := continues_qualifier ht hk hhead htail s search true
  rw [findType_of_plain hhead.isPlainPath,
    findType_of_plain (hhead.isPlainPath.join htail.isPlainPath)]
  refine ⟨fun outer ty houter hty => hcontinues.found ty ?_, hcontinues.missed⟩
  rw [houter, findBehind, ← findType_of_plain htail.isPlainPath]
  exact hty

/-- The namespace `k` uses `n`, where `A` is, so from there `A::B` is the class in `n::A`. There is
no `C`, and so no `C::B`. -/
theorem qualified_lookup_of_used : ∃ steps m, History .free steps m ∧
    m.findType ⟨4⟩ "A" .owners = some (.raw ⟨2⟩) ∧ m.findType ⟨2⟩ "B" .local = some (.raw ⟨3⟩) ∧
    m.findType ⟨4⟩ "A::B" .owners = some (.raw ⟨3⟩) ∧ m.findType ⟨4⟩ "C" .owners = none ∧
    m.findType ⟨4⟩ "C::B" .owners = none := by
  let actions : List Action :=
    [.addType .root (declaration .namespaceType "" "n") true,
     .addType ⟨1⟩ (declaration .classType "" "A") true,
     .addType ⟨2⟩ (declaration .classType "" "B") true,
     .addType .root (declaration .namespaceType "" "k") true, .useNamespace ⟨4⟩ ⟨1⟩]
  have h : History .free (bare.stepsOf actions) (bare.afterAll actions) := by
    rw [← List.nil_append (bare.stepsOf _)]
    refine history_bare.afterAll ?_
    simp only [actions, List.forall_mem_cons, List.not_mem_nil, false_imp_iff, implies_true,
      and_true]
    exact ⟨fun _ => isFresh_declaration nofun nofun, fun _ => isFresh_declaration nofun nofun,
      fun _ => isFresh_declaration nofun nofun, fun _ => isFresh_declaration nofun nofun,
      fun _ => trivial⟩
  have hd : ∀ step ∈ bare.stepsOf actions, step.2.DeclaresName := by
    intro step hstep
    have hmem := snd_mem_of_mem_stepsOf hstep
    simp only [actions, List.mem_cons, List.not_mem_nil, or_false] at hmem
    obtain he | he | he | he | he := hmem <;> rw [he]
    · exact ⟨"n", { name := "n" }, rfl, rfl⟩
    · exact ⟨"A", { name := "A" }, rfl, rfl⟩
    · exact ⟨"B", { name := "B" }, rfl, rfl⟩
    · exact ⟨"k", { name := "k" }, rfl, rfl⟩
    · trivial
  have ha : (bare.afterAll actions).AliasesUndivided := by
    have hnone : ∀ s, ((bare.afterAll actions).members s).typeAliases.keys = [] :=
      members_of_forall (P := fun a => a.typeAliases.keys = []) (by decide +kernel) rfl
    intro s name hsome
    obtain ⟨ty, hty⟩ := Option.isSome_iff_exists.mp hsome
    have hkey := OrderedMap.mem_keys_of_get? hty
    rw [hnone s] at hkey
    cases hkey
  have hlookup := fun head (hhead : Name.IsQualifier head) => h.qualified_lookup hd ha hhead
    (.word (by decide +kernel : Name.IsWord "B")) ⟨4⟩ .owners
  have hfound : (bare.afterAll actions).findType ⟨4⟩ "A" .owners = some (.raw ⟨2⟩) := by
    decide +kernel
  have hrest : (bare.afterAll actions).findType ⟨2⟩ "B" .local = some (.raw ⟨3⟩) := by
    decide +kernel
  have hmissed : (bare.afterAll actions).findType ⟨4⟩ "C" .owners = none := by decide +kernel
  exact ⟨_, _, h, hfound, hrest,
    (hlookup "A" (.relative (.word (by decide +kernel)))).1 _ _ hfound hrest, hmissed,
    (hlookup "C" (.relative (.word (by decide +kernel)))).2 hmissed⟩

end Model

end ApiModel
