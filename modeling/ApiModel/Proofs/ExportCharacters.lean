import ApiModel.Proofs.Mangling

/-!
Characters of export names. Whatever a name is made of, its export name is the prefix of the library
with letters, digits and underscores behind it, so that it is an identifier if the prefix is the
beginning of one.
-/

namespace ApiModel.ExportName

variable {libraryPrefix name : String} {cs : List Char} {c : Char}

theorem isIdentChar_of_mem_manglePath (h : c ∈ manglePath cs) : Text.isIdentChar c = true := by
  fun_induction manglePath cs with
  | case1 => cases h
  | case2 cs ih | case4 cs hcs ih => exact (List.mem_cons.mp h).elim (· ▸ by decide) ih
  | case3 => cases h
  | case5 cs ih | case6 cs ih =>
    simp only [List.mem_cons] at h
    rcases h with rfl | rfl | rfl | rfl | h
    · decide
    · decide
    · decide
    · decide
    · exact ih h
  | case7 d cs _ _ _ _ ih =>
    rcases List.mem_cons.mp h with rfl | h
    · split
      · assumption
      · decide
    · exact ih h

theorem isIdentChar_of_mem_mangleOperator {skip : Nat} (h : c ∈ mangleOperator skip cs) :
    Text.isIdentChar c = true := by
  have hwords : ∀ entry ∈ operatorWords, entry.2.all Text.isIdentChar = true := by decide
  fun_induction mangleOperator skip cs with
  | case1 => cases h
  | case2 skip d cs ih => exact ih h
  | case3 d cs token word hfind ih =>
    rcases List.mem_append.mp h with h | h
    · exact List.all_eq_true.mp (hwords _ (List.mem_of_find?_eq_some hfind)) c h
    · exact ih h
  | case4 d cs hfind ih =>
    rcases List.mem_cons.mp h with rfl | h
    · split
      · assumption
      · decide
    · exact ih h

theorem isIdentChar_of_mem_mangleChars (h : c ∈ mangleChars cs) : Text.isIdentChar c = true := by
  unfold mangleChars at h
  split at h
  · exact (List.mem_append.mp h).elim isIdentChar_of_mem_manglePath
      isIdentChar_of_mem_mangleOperator
  · exact isIdentChar_of_mem_manglePath h

theorem isIdentChar_of_mem_mangle (h : c ∈ (mangle libraryPrefix name).toList) :
    c ∈ libraryPrefix.toList ∨ Text.isIdentChar c = true := by
  rw [mangle, String.toList_append, String.toList_ofList] at h
  exact (List.mem_append.mp h).imp_right isIdentChar_of_mem_mangleChars

/-- Behind a prefix of letters, digits and underscores there is nothing else in an export name. -/
theorem mangle_legal (hp : ∀ c ∈ libraryPrefix.toList, Text.isIdentChar c = true) (name : String) :
    (∀ c ∈ (mangle libraryPrefix name).toList, Text.isAlphanumeric c = true ∨ c = '_') ∧
      libraryPrefix.toList <+: (mangle libraryPrefix name).toList := by
  constructor
  · intro c hc
    have hident : Text.isIdentChar c = true := by
      obtain hprefix | hrest := isIdentChar_of_mem_mangle hc
      · exact hp c hprefix
      · exact hrest
    simpa [Text.isIdentChar] using hident
  · rw [mangle, String.toList_append]
    exact List.prefix_append _ _

/-- A bracket that closes nothing, a snowman, a blank, and three operator tokens. -/
theorem mangle_legal_of_operator :
    mangle "rbind_" "a>☃ ::operator!-~" = "rbind_a___operator_not_minus_complement" ∧
    (∀ c ∈ (mangle "rbind_" "a>☃ ::operator!-~").toList, Text.isAlphanumeric c = true ∨ c = '_') ∧
    "rbind_".toList <+: (mangle "rbind_" "a>☃ ::operator!-~").toList :=
  ⟨by decide +kernel, mangle_legal (List.all_eq_true.mp (by decide)) "a>☃ ::operator!-~"⟩

end ApiModel.ExportName
