import Mathlib.Data.Nat.Notation

/-! Mixed-radix positions: the recovery of the row indices of an element of nested rows
from its flat position. -/
namespace Radix

/-- Splits off the innermost index first; whatever is left is the outermost index. -/
def split : ℕ → List ℕ → List ℕ
  | rest, [] => [rest]
  | rest, dim :: dims => split (rest / dim) dims ++ [rest % dim]

/-- Rows are stored one after another, so splitting undoes one step into a row. -/
theorem split_step {dim j : ℕ} (hj : j < dim) (i : ℕ) (dims : List ℕ) :
    split (i * dim + j) (dim :: dims) = split i dims ++ [j] := by
  have hdiv : (i * dim + j) / dim = i := by
    rw [Nat.mul_comm, Nat.mul_add_div (by omega), Nat.div_eq_of_lt hj, Nat.add_zero]
  have hmod : (i * dim + j) % dim = j := by
    rw [Nat.mul_comm, Nat.mul_add_mod, Nat.mod_eq_of_lt hj]
  rw [split, hdiv, hmod]

end Radix
