import Mathlib.Algebra.Ring.Nat
import Mathlib.Data.Set.Lattice
import Mathlib.Order.CompletePartialOrder
import Mathlib.Order.Interval.Set.Basic

/-! Checked arithmetic of machine words, half-open ranges of words, and the ranges of the items of
a strided sequence. -/
namespace Storage

section
variable {w : ℕ} {a b c : BitVec w}

/-- The sum, unless it does not fit in a word. -/
def checkedAdd (a b : BitVec w) : Option (BitVec w) :=
  if a.uaddOverflow b then none else some (a + b)

def checkedMul (a b : BitVec w) : Option (BitVec w) :=
  if a.umulOverflow b then none else some (a * b)

theorem checkedAdd_eq_some : checkedAdd a b = some c ↔ c.toNat = a.toNat + b.toNat := by
  unfold checkedAdd BitVec.uaddOverflow
  have hc := c.isLt
  by_cases h : 2 ^ w ≤ a.toNat + b.toNat
  · simp [h]
    omega
  · have hsum : (a + b).toNat = a.toNat + b.toNat := by
      rw [BitVec.toNat_add, Nat.mod_eq_of_lt (by omega)]
    simp only [ge_iff_le, h, decide_false, Bool.false_eq_true, if_false, Option.some.injEq]
    rw [← BitVec.toNat_inj, hsum]
    exact eq_comm

theorem checkedAdd_eq_none : checkedAdd a b = none ↔ 2 ^ w ≤ a.toNat + b.toNat := by
  unfold checkedAdd BitVec.uaddOverflow
  simp

theorem checkedMul_eq_some : checkedMul a b = some c ↔ c.toNat = a.toNat * b.toNat := by
  unfold checkedMul BitVec.umulOverflow
  have hc := c.isLt
  by_cases h : 2 ^ w ≤ a.toNat * b.toNat
  · simp [h]
    omega
  · have hmul : (a * b).toNat = a.toNat * b.toNat := by
      rw [BitVec.toNat_mul, Nat.mod_eq_of_lt (by omega)]
    simp only [ge_iff_le, h, decide_false, Bool.false_eq_true, if_false, Option.some.injEq]
    rw [← BitVec.toNat_inj, hmul]
    exact eq_comm

theorem checkedMul_eq_none : checkedMul a b = none ↔ 2 ^ w ≤ a.toNat * b.toNat := by
  unfold checkedMul BitVec.umulOverflow
  simp

end

/-- A half-open range of positions. -/
structure WordRange (w : ℕ) where
  start : BitVec w
  stop : BitVec w
deriving DecidableEq

def WordRange.positions {w : ℕ} (r : WordRange w) : Set ℕ := Set.Ico r.start.toNat r.stop.toNat

/-! ### Items at equal distances -/

section
variable {stride size n i j : ℕ}

/-- An item ends before the next one starts. -/
theorem strided_le (hsize : size ≤ stride) (h : i < j) : i * stride + size ≤ j * stride := by
  have hnext : (i + 1) * stride ≤ j * stride := Nat.mul_le_mul_right stride h
  have hsucc : (i + 1) * stride = i * stride + stride := Nat.succ_mul i stride
  omega

theorem strided_disjoint (hsize : size ≤ stride) (h : i ≠ j) :
    Disjoint (Set.Ico (i * stride) (i * stride + size)) (Set.Ico (j * stride) (j * stride + size)) := by
  rw [Set.disjoint_left]
  intro k hi hj
  have hi₁ := hi.1
  have hi₂ := hi.2
  have hj₁ := hj.1
  have hj₂ := hj.2
  rcases Nat.lt_or_gt_of_ne h with hlt | hlt
  · have hle := strided_le hsize hlt
    omega
  · have hle := strided_le hsize hlt
    omega

/-- The item that a position belongs to. -/
theorem mem_strided_div {k : ℕ} (hk : k < n * stride) :
    k / stride < n ∧ k ∈ Set.Ico (k / stride * stride) (k / stride * stride + stride) := by
  have hpos : 0 < stride := by
    by_contra hzero
    have hstride : stride = 0 := by omega
    rw [hstride] at hk
    omega
  have hlt : k / stride < n := (Nat.div_lt_iff_lt_mul hpos).mpr hk
  have hmod := Nat.mod_lt k hpos
  have hsplit := Nat.div_add_mod' k stride
  refine ⟨hlt, ?_, ?_⟩
  · omega
  · omega

/-- The items fill the sequence exactly when there is no gap between them. -/
theorem strided_cover (hsize : size ≤ stride) :
    (⋃ i : Fin n, Set.Ico (i * stride) (i * stride + size)) = Set.Iio (n * stride) ↔
      size = stride ∨ n = 0 := by
  constructor
  · intro hcover
    by_contra hgap
    have hlt : size < stride := by omega
    have hn : 0 < n := by omega
    have hfirst : size ∈ Set.Iio (n * stride) := by
      have hle : 1 * stride ≤ n * stride := Nat.mul_le_mul_right stride hn
      show size < n * stride
      omega
    rw [← hcover, Set.mem_iUnion] at hfirst
    obtain ⟨i, hi⟩ := hfirst
    have hi₁ := hi.1
    have hi₂ := hi.2
    by_cases hzero : (i : ℕ) = 0
    · rw [hzero] at hi₂
      omega
    · have hle : 1 * stride ≤ i * stride := Nat.mul_le_mul_right stride (by omega)
      omega
  · intro h
    ext k
    rw [Set.mem_iUnion]
    constructor
    · intro hk
      obtain ⟨i, hi⟩ := hk
      have hle := strided_le hsize i.isLt
      exact lt_of_lt_of_le hi.2 hle
    · intro hk
      have hlt : k < n * stride := hk
      rcases h with hfull | hnone
      · obtain ⟨hindex, hmem⟩ := mem_strided_div hlt
        refine ⟨⟨k / stride, hindex⟩, ?_⟩
        rw [hfull]
        exact hmem
      · rw [hnone] at hlt
        omega

end

end Storage
