import ApiModel.Proofs.Arguments

/-!
Names of templates with arguments. A name is split exactly if it is a base with a balanced text in
brackets behind it. If that text is a list of arguments with commas between them, the base and the
arguments are what the name is split into.
-/

namespace ApiModel.Template

structure StandsAlone (text : String) : Prop where
  ne_empty : text ≠ ""
  trimmed : Text.trim text.toList = text.toList
  balanced : Balanced text.toList
  /-- Each comma stands inside of brackets. -/
  commas : ∀ front rest, text.toList = front ++ ',' :: rest → front.count '<' ≠ front.count '>'

theorem standsAlone_iff {text : String} :
    StandsAlone text ↔ IsArgument text.toList ∧ Text.trim text.toList = text.toList := by
  have hcommas : CommasInside 0 text.toList ↔ ∀ front rest, text.toList = front ++ ',' :: rest →
      front.count '<' ≠ front.count '>' := by simp only [CommasInside, Nat.zero_add]
  constructor
  · intro h
    refine ⟨⟨fun he => h.ne_empty (String.toList_eq_nil_iff.mp he), ?_⟩, h.trimmed⟩
    exact depthBehind_eq_some_iff.mpr
      ⟨h.balanced.closes, hcommas.mpr h.commas, by rw [h.balanced.count_eq]⟩
  · rintro ⟨h, ht⟩
    refine ⟨fun he => h.ne_nil (String.toList_eq_nil_iff.mpr he), ht, h.balanced, ?_⟩
    exact hcommas.mp (depthBehind_eq_some_iff.mp h.depth).2.1

instance (text : String) : Decidable (StandsAlone text) :=
  decidable_of_iff _ standsAlone_iff.symm

/-- Split are the names that consist of a base without brackets and of a balanced text in brackets,
and the base is the first part of the result. Arguments that stand alone are read back from the list
of them behind a base. -/
theorem split?_template_names :
    (∀ name base arguments, split? name = some (base, arguments) ↔
      ∃ inner, name = base ++ "<" ++ inner ++ ">" ∧ base ≠ "" ∧ '<' ∉ base.toList ∧
        Balanced inner.toList ∧ arguments = parseArguments inner) ∧
    ∀ base arguments, base ≠ "" → '<' ∉ base.toList → (∀ text ∈ arguments, StandsAlone text) →
      split? (base ++ "<" ++ ",".intercalate arguments ++ ">") = some (base, arguments) := by
  have hname : ∀ base inner : String,
      (base ++ "<" ++ inner ++ ">").toList = base.toList ++ '<' :: (inner.toList ++ ['>']) :=
    fun base inner => by simp [String.toList_append]
  constructor
  · intro name base arguments
    constructor
    · intro h
      obtain ⟨⟨front, inner⟩, hcut, he⟩ := Option.map_eq_some_iff.mp h
      cases he
      obtain ⟨hcs, hne, hbase, hinner⟩ := cut?_eq_some_iff.mp hcut
      refine ⟨String.ofList inner, ?_, by simpa using hne, by simpa using hbase,
        by simpa using hinner, ?_⟩
      · rw [← String.toList_inj, hname, hcs, String.toList_ofList, String.toList_ofList]
      · rw [parseArguments, String.toList_ofList]
    · rintro ⟨inner, rfl, hne, hbase, hinner, rfl⟩
      have hcut : cut? (base ++ "<" ++ inner ++ ">").toList = some (base.toList, inner.toList) :=
        cut?_eq_some_iff.mpr
          ⟨hname base inner, fun he => hne (String.toList_eq_nil_iff.mp he), hbase, hinner⟩
      rw [split?, hcut, Option.map_some, parseArguments]
      dsimp only
      rw [String.ofList_toList]
  · intro base arguments hne hbase h
    exact split?_intercalate hne hbase (fun text hm => (standsAlone_iff.mp (h text hm)).1)
      fun text hm => (h text hm).trimmed

/-- The arguments `std::string` and `std::map<A,B>`, which has a comma of its own. -/
theorem split?_template_names_of_map :
    (∀ text ∈ ["std::string", "std::map<A,B>"], StandsAlone text) ∧
    split? "std::map<std::string,std::map<A,B>>" =
      some ("std::map", ["std::string", "std::map<A,B>"]) := by
  have halone : ∀ text ∈ ["std::string", "std::map<A,B>"], StandsAlone text := by decide +kernel
  have hsplit := split?_template_names.2 "std::map" _ (by decide) (by decide) halone
  have hname : "std::map" ++ "<" ++ ",".intercalate ["std::string", "std::map<A,B>"] ++ ">" =
      "std::map<std::string,std::map<A,B>>" := by decide +kernel
  rw [hname] at hsplit
  exact ⟨halone, hsplit⟩

end ApiModel.Template
