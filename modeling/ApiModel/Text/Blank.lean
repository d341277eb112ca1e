/-!
Blank characters and trimming. A character is blank when it has the Unicode property `White_Space`.
-/

namespace ApiModel.Text

/-- The characters with the property `White_Space`. -/
def isBlank (c : Char) : Bool :=
  c = ' ' || (0x09 ≤ c.val && c.val ≤ 0x0D) || c.val = 0x85 || c.val = 0xA0 || c.val = 0x1680 ||
    (0x2000 ≤ c.val && c.val ≤ 0x200A) || c.val = 0x2028 || c.val = 0x2029 || c.val = 0x202F ||
    c.val = 0x205F || c.val = 0x3000

def trimStart (cs : List Char) : List Char := cs.dropWhile isBlank

/-- The text without the longest end on which `p` holds throughout. -/
def dropEndWhile (p : Char → Bool) : List Char → List Char
  | [] => []
  | c :: cs =>
    match dropEndWhile p cs with
    | [] => if p c then [] else [c]
    | rest => c :: rest

def trimEnd (cs : List Char) : List Char := dropEndWhile isBlank cs

def trim (cs : List Char) : List Char := trimEnd (trimStart cs)

def dropBlanks (cs : List Char) : List Char := cs.filter fun c => !isBlank c

@[simp] theorem dropEndWhile_nil (p : Char → Bool) : dropEndWhile p [] = [] := rfl

theorem dropEndWhile_append_of_neg {p : Char → Bool} {c : Char} (hc : p c = false)
    (cs : List Char) : dropEndWhile p (cs ++ [c]) = cs ++ [c] := by
  induction cs with
  | nil => simp [dropEndWhile, hc]
  | cons d ds ih => cases ds <;> simp_all [dropEndWhile]

@[simp] theorem mem_dropBlanks {c : Char} {cs : List Char} :
    c ∈ dropBlanks cs ↔ c ∈ cs ∧ isBlank c = false := by
  simp [dropBlanks]

@[simp] theorem dropBlanks_dropBlanks (cs : List Char) :
    dropBlanks (dropBlanks cs) = dropBlanks cs := by
  simp [dropBlanks]

end ApiModel.Text
