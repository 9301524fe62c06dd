import ZeroSchema.Library.Outcome
import ZeroSchema.Library.Radix
import Mathlib.Algebra.Ring.Nat

/-! Rows of rows: the indices of their elements, the row-major rank of an index, and the
loop that visits the elements in the order of their ranks. -/
namespace Rows
open Control

/-- The indices of the elements of nested rows of the given lengths, outermost first. -/
abbrev Index : List ℕ → Type
  | [] => Unit
  | n :: dims => Fin n × Index dims

namespace Index

def toList : {dims : List ℕ} → Index dims → List ℕ
  | [], _ => []
  | _ :: _, idx => idx.1 :: toList idx.2

/-- The number of elements that are stored before this one. -/
def rank : {dims : List ℕ} → Index dims → ℕ
  | [], _ => 0
  | _ :: dims, idx => idx.1 * dims.prod + rank idx.2

/-- An element of a row, as an element of the rows around it. -/
def append : {outer inner : List ℕ} → Index outer → Index inner → Index (outer ++ inner)
  | [], _, _, idx => idx
  | _ :: _, _, rows, idx => (rows.1, append rows.2 idx)

theorem toList_injective {dims : List ℕ} : Function.Injective (toList : Index dims → List ℕ) := by
  induction dims with
  | nil =>
    intro idx idx' _
    rfl
  | cons n dims ih =>
    intro idx idx' h
    have hcons : (idx.1 : ℕ) = idx'.1 ∧ toList idx.2 = toList idx'.2 := List.cons_eq_cons.mp h
    exact Prod.ext (Fin.ext hcons.1) (ih hcons.2)

theorem rank_lt {dims : List ℕ} (idx : Index dims) : idx.rank < dims.prod := by
  induction dims with
  | nil => exact Nat.one_pos
  | cons n dims ih =>
    have hrow := ih idx.2
    have hle : (idx.1 + 1) * dims.prod ≤ n * dims.prod := Nat.mul_le_mul_right _ idx.1.isLt
    rw [Nat.add_mul, Nat.one_mul] at hle
    rw [List.prod_cons, rank]
    omega

/-- The elements of an earlier row come first, and inside a row it is their own order. -/
theorem rank_lt_rank_iff {n : ℕ} {dims : List ℕ} {idx idx' : Index (n :: dims)} :
    idx.rank < idx'.rank ↔ idx.1 < idx'.1 ∨ idx.1 = idx'.1 ∧ idx.2.rank < idx'.2.rank := by
  have hlt := rank_lt idx.2
  have hlt' := rank_lt idx'.2
  have step {i j : Fin n} (h : i < j) : (i : ℕ) * dims.prod + dims.prod ≤ j * dims.prod := by
    have hle : ((i : ℕ) + 1) * dims.prod ≤ j * dims.prod := Nat.mul_le_mul_right _ h
    rwa [Nat.add_mul, Nat.one_mul] at hle
  rw [rank, rank]
  rcases lt_trichotomy idx.1 idx'.1 with h | h | h
  · have hstep := step h
    have hrank : idx.1 * dims.prod + idx.2.rank < idx'.1 * dims.prod + idx'.2.rank := by omega
    exact iff_of_true hrank (Or.inl h)
  · simp [h]
  · have hstep := step h
    have hrank : ¬idx.1 * dims.prod + idx.2.rank < idx'.1 * dims.prod + idx'.2.rank := by omega
    refine iff_of_false hrank ?_
    rintro (h' | ⟨h', -⟩)
    · exact absurd h h'.asymm
    · exact absurd h h'.symm.not_lt

/-- Division and remainder by the row lengths, innermost first, undo the rank. -/
private theorem split_add {dims : List ℕ} (a : ℕ) (idx : Index dims) (more : List ℕ) :
    Radix.split (a * dims.prod + idx.rank) (dims.reverse ++ more) =
      Radix.split a more ++ idx.toList := by
  induction dims generalizing a more with
  | nil => simp [rank, toList]
  | cons n dims ih =>
    have hrow : a * (n :: dims).prod + idx.rank = (a * n + idx.1) * dims.prod + idx.2.rank := by
      rw [List.prod_cons, rank, Nat.add_mul, Nat.mul_assoc, Nat.add_assoc]
    have hdims : (n :: dims).reverse ++ more = dims.reverse ++ n :: more := by simp
    rw [hrow, hdims, ih (a * n + idx.1) idx.2, Radix.split_step idx.1.isLt, List.append_assoc]
    rfl

theorem split_rank {n : ℕ} {dims : List ℕ} (idx : Index (n :: dims)) :
    Radix.split idx.rank dims.reverse = idx.toList := by
  have h := split_add idx.1 idx.2 []
  rwa [List.append_nil] at h

/-- The checks of all elements, row after row, up to the first failure. -/
def walk {ε : Type} : {dims : List ℕ} → (Index dims → Outcome ε Unit) → Outcome ε Unit
  | [], check => check ()
  | n :: _, check => forEach n fun i => walk fun idx => check (i, idx)

theorem walk_eq_ok {ε : Type} {dims : List ℕ} {check : Index dims → Outcome ε Unit} :
    walk check = .ok () ↔ ∀ idx, check idx = .ok () := by
  induction dims with
  | nil => exact ⟨fun h _ => h, fun h => h ()⟩
  | cons n dims ih =>
    rw [walk, forEach_eq_ok]
    exact ⟨fun h idx => ih.mp (h idx.1) idx.2, fun h i => ih.mpr fun idx => h (i, idx)⟩

/-- The walk reports the failing element of the least rank. -/
theorem walk_eq_err {ε : Type} {dims : List ℕ} {check : Index dims → Outcome ε Unit} {e : ε} :
    walk check = .err e ↔
      ∃ idx, check idx = .err e ∧ ∀ idx', rank idx' < rank idx → check idx' = .ok () := by
  induction dims with
  | nil =>
    constructor
    · intro h
      exact ⟨(), h, fun idx' hlt => absurd hlt (Nat.lt_irrefl 0)⟩
    · rintro ⟨idx, h, -⟩
      exact h
  | cons n dims ih =>
    rw [walk, forEach_eq_err]
    constructor
    · rintro ⟨i, hi, hbefore⟩
      obtain ⟨idx, hidx, hrow⟩ := ih.mp hi
      refine ⟨(i, idx), hidx, fun idx' hlt => ?_⟩
      rcases rank_lt_rank_iff.mp hlt with hlt | ⟨heq, hlt⟩
      · exact walk_eq_ok.mp (hbefore idx'.1 hlt) idx'.2
      · obtain ⟨i', idx'⟩ := idx'
        obtain rfl : i' = i := heq
        exact hrow idx' hlt
    · rintro ⟨idx, hidx, hbefore⟩
      refine ⟨idx.1, ih.mpr ⟨idx.2, hidx, fun idx' hlt => ?_⟩, fun i hi => ?_⟩
      · exact hbefore (idx.1, idx') (rank_lt_rank_iff.mpr (Or.inr ⟨rfl, hlt⟩))
      · exact walk_eq_ok.mpr fun idx' => hbefore (i, idx') (rank_lt_rank_iff.mpr (Or.inl hi))

end Index

end Rows
