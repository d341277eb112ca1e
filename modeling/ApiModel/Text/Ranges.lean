/-!
Sets of characters given by ranges of code points, as the tables of Unicode properties are.
-/

namespace ApiModel.Text

/-- A set of code points: each entry holds the first and the last member of a range. -/
abbrev Ranges := List (Nat × Nat)

namespace Ranges

def contains (table : Ranges) (c : Char) : Bool :=
  table.any fun range => range.1 ≤ c.toNat && c.toNat ≤ range.2

@[simp] theorem contains_iff {table : Ranges} {c : Char} :
    table.contains c = true ↔ ∃ range ∈ table, range.1 ≤ c.toNat ∧ c.toNat ≤ range.2 := by
  simp [contains]

end Ranges

end ApiModel.Text
