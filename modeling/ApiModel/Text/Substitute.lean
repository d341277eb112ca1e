import ApiModel.Text.Alphanumeric

/-!
Replacing parts of a text: every occurrence of a pattern, or a keyword where it stands alone.
-/

namespace ApiModel.Text

/-- Skips `skip` characters, then replaces each occurrence of `pattern`, from left to right, by
`replacement`. Occurrences do not overlap. -/
def replaceFrom (pattern replacement : List Char) : Nat → List Char → List Char
  | _, [] => []
  | skip + 1, _ :: cs => replaceFrom pattern replacement skip cs
  | 0, c :: cs =>
    if pattern.isPrefixOf (c :: cs) then
      replacement ++ replaceFrom pattern replacement (pattern.length - 1) cs
    else c :: replaceFrom pattern replacement 0 cs

def replaceAll (pattern replacement cs : List Char) : List Char :=
  replaceFrom pattern replacement 0 cs

def isBoundary (c : Option Char) : Bool := !c.any isIdentChar

/-- Neither neighbour of a keyword in front of `behind` is an identifier character. `passed` is what
has been read since the last occurrence, and `out` what is kept of the text up to there: its last
character decides where nothing has been passed. -/
def hasBoundaries (out passed behind : List Char) : Bool :=
  isBoundary (passed.getLast?.or out.getLast?) && isBoundary behind.head?

/-- Skips `skip` characters, then removes each occurrence of `keyword` that has boundaries on both
sides, from left to right, with `out` and `passed` for what has been read. -/
def removeKeywordFrom (keyword : List Char) :
    (skip : Nat) → (out passed cs : List Char) → List Char
  | _, out, passed, [] => out ++ passed
  | skip + 1, out, passed, _ :: cs => removeKeywordFrom keyword skip out passed cs
  | 0, out, passed, c :: cs =>
    if keyword.isPrefixOf (c :: cs) then
      let kept := if hasBoundaries out passed ((c :: cs).drop keyword.length) then [] else keyword
      removeKeywordFrom keyword (keyword.length - 1) (out ++ passed ++ kept) [] cs
    else removeKeywordFrom keyword 0 out (passed ++ [c]) cs

/-- Removes a non-empty keyword wherever neither neighbour is an identifier character. -/
def removeKeyword (keyword cs : List Char) : List Char := removeKeywordFrom keyword 0 [] [] cs

def removeConst (cs : List Char) : List Char := removeKeyword "const".toList cs

@[simp] theorem replaceAll_nil (pattern replacement : List Char) :
    replaceAll pattern replacement [] = [] := by
  simp [replaceAll, replaceFrom]

@[simp] theorem removeConst_nil : removeConst [] = [] := rfl

end ApiModel.Text
