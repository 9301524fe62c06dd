import ZeroSchema.Library.Bytes
import Mathlib.Algebra.Ring.Nat
import Mathlib.Algebra.Ring.Divisibility.Basic

/-! Sizes, alignments and the offsets of a `repr(C)` aggregate: declaration order, every
field at the next multiple of its alignment, and a size rounded up to the largest one. -/
namespace Storage

/-- The least multiple of `a` that is at least `n`. -/
def roundUp (n a : ℕ) : ℕ := (n + a - 1) / a * a

theorem le_roundUp (n : ℕ) {a : ℕ} (ha : 0 < a) : n ≤ roundUp n a := by
  have hdiv := Nat.div_add_mod (n + a - 1) a
  have hmod := Nat.mod_lt (n + a - 1) ha
  have hcomm : (n + a - 1) / a * a = a * ((n + a - 1) / a) := mul_comm _ _
  unfold roundUp
  omega

theorem dvd_roundUp (n a : ℕ) : a ∣ roundUp n a := Dvd.intro_left _ rfl

theorem roundUp_le {n m a : ℕ} (ha : 0 < a) (hdvd : a ∣ m) (h : n ≤ m) : roundUp n a ≤ m := by
  obtain ⟨k, rfl⟩ := hdvd
  have hlt : (n + a - 1) / a < k + 1 := by
    apply Nat.div_lt_of_lt_mul
    rw [Nat.mul_add, Nat.mul_one]
    omega
  have hmul : (n + a - 1) / a * a ≤ k * a := Nat.mul_le_mul_right a (Nat.le_of_lt_succ hlt)
  unfold roundUp
  rwa [mul_comm k a] at hmul

/-- A size together with a power-of-two alignment that divides it. -/
structure Layout where
  size : ℕ
  logAlign : ℕ
  dvd : 2 ^ logAlign ∣ size
deriving DecidableEq

namespace Layout

def align (L : Layout) : ℕ := 2 ^ L.logAlign

theorem align_pos (L : Layout) : 0 < L.align := Nat.two_pow_pos _

theorem align_dvd_size (L : Layout) : L.align ∣ L.size := L.dvd

theorem align_dvd_align {L M : Layout} (h : L.logAlign ≤ M.logAlign) : L.align ∣ M.align :=
  Nat.pow_dvd_pow 2 h

/-- `size` unaligned bytes. -/
def bytes (size : ℕ) : Layout := ⟨size, 0, by simp⟩

/-- `n` consecutive elements. -/
def array (L : Layout) (n : ℕ) : Layout := ⟨n * L.size, L.logAlign, Dvd.dvd.mul_left L.dvd n⟩

/-- A wrapper that raises the alignment and pads the size to it. -/
def raise (L : Layout) (logAlign : ℕ) : Layout :=
  ⟨roundUp L.size (2 ^ max L.logAlign logAlign), max L.logAlign logAlign, dvd_roundUp _ _⟩

theorem size_le_raise (L : Layout) (a : ℕ) : L.size ≤ (L.raise a).size :=
  le_roundUp _ (Nat.two_pow_pos _)

/-- What is too short for a wrapped value is too short for the value. -/
theorem size_lt_of_raise {L M : Layout} {a : ℕ} (h : (M.raise a).size < (L.raise a).size) :
    (M.raise a).size < L.size := by
  by_contra hle
  have hle : L.size ≤ (M.raise a).size := not_lt.mp hle
  have hround : (L.raise a).size ≤ (M.raise a).size := by
    rcases le_total a L.logAlign with ha | ha
    · have hmax : max L.logAlign a = L.logAlign := max_eq_left ha
      have hself : roundUp L.size (2 ^ max L.logAlign a) ≤ L.size := by
        rw [hmax]
        exact roundUp_le L.align_pos L.dvd le_rfl
      exact hself.trans hle
    · have hmax : max L.logAlign a = a := max_eq_right ha
      have hdvd : 2 ^ a ∣ (M.raise a).size :=
        (Nat.pow_dvd_pow 2 (le_max_right _ _)).trans (M.raise a).dvd
      show roundUp L.size (2 ^ max L.logAlign a) ≤ _
      rw [hmax]
      exact roundUp_le (Nat.two_pow_pos a) hdvd hle
  omega

section Aggregate
variable {n : ℕ} (fields : Fin n → Layout)

/-- One past the last byte of the first `k` fields. -/
def endOf : ℕ → ℕ
  | 0 => 0
  | k + 1 =>
    if h : k < n then roundUp (endOf k) (fields ⟨k, h⟩).align + (fields ⟨k, h⟩).size
    else endOf k

def fieldOffset (i : Fin n) : ℕ := roundUp (endOf fields i) (fields i).align

/-- The largest alignment exponent among the first `k` fields. -/
def maxLogAlign : ℕ → ℕ
  | 0 => 0
  | k + 1 =>
    if h : k < n then max (maxLogAlign k) (fields ⟨k, h⟩).logAlign else maxLogAlign k

/-- The largest size among the first `k` fields. -/
def maxSize : ℕ → ℕ
  | 0 => 0
  | k + 1 => if h : k < n then max (maxSize k) (fields ⟨k, h⟩).size else maxSize k

def record : Layout :=
  ⟨roundUp (endOf fields n) (2 ^ maxLogAlign fields n), maxLogAlign fields n, dvd_roundUp _ _⟩

/-- Every member starts at offset zero. -/
def union : Layout :=
  ⟨roundUp (maxSize fields n) (2 ^ maxLogAlign fields n), maxLogAlign fields n, dvd_roundUp _ _⟩

variable {fields}

theorem endOf_succ (i : Fin n) : endOf fields (i + 1) = fieldOffset fields i + (fields i).size := by
  simp [endOf, fieldOffset]

theorem endOf_mono {j k : ℕ} (h : j ≤ k) : endOf fields j ≤ endOf fields k := by
  induction h with
  | refl => exact le_rfl
  | @step k _ ih =>
    refine ih.trans ?_
    rw [endOf]
    split_ifs with hk
    · exact (le_roundUp _ (align_pos _)).trans (Nat.le_add_right _ _)
    · exact le_rfl

/-- No value is above the maximum of all, taken step by step. -/
theorem le_runningMax (value : Fin n → ℕ) (g : ℕ → ℕ)
    (hstep : ∀ k, g (k + 1) = if h : k < n then max (g k) (value ⟨k, h⟩) else g k) (i : Fin n) :
    value i ≤ g n := by
  have main : ∀ k, (i : ℕ) < k → value i ≤ g k := by
    intro k
    induction k with
    | zero => intro h; omega
    | succ k ih =>
      intro h
      rw [hstep]
      split_ifs with hk
      · rcases Nat.lt_succ_iff_lt_or_eq.mp h with h | h
        · exact (ih h).trans (le_max_left _ _)
        · obtain rfl : i = ⟨k, hk⟩ := Fin.ext h
          exact le_max_right _ _
      · exact ih (by have := i.isLt; omega)
  exact main n i.isLt

theorem logAlign_le_maxLogAlign (i : Fin n) : (fields i).logAlign ≤ maxLogAlign fields n :=
  le_runningMax (fun i => (fields i).logAlign) (maxLogAlign fields) (fun _ => rfl) i

theorem size_le_maxSize (i : Fin n) : (fields i).size ≤ maxSize fields n :=
  le_runningMax (fun i => (fields i).size) (maxSize fields) (fun _ => rfl) i

theorem align_dvd_fieldOffset (i : Fin n) : (fields i).align ∣ fieldOffset fields i :=
  dvd_roundUp _ _

theorem fieldOffset_bound (i : Fin n) :
    fieldOffset fields i + (fields i).size ≤ (record fields).size := by
  rw [← endOf_succ]
  exact (endOf_mono (Nat.succ_le_of_lt i.isLt)).trans (le_roundUp _ (Nat.two_pow_pos _))

/-- Fields are laid out one after the other. -/
theorem fieldOffset_lt {i j : Fin n} (h : i < j) :
    fieldOffset fields i + (fields i).size ≤ fieldOffset fields j := by
  rw [← endOf_succ]
  exact (endOf_mono (Nat.succ_le_of_lt h)).trans (le_roundUp _ (align_pos _))

theorem align_dvd_record (i : Fin n) : (fields i).align ∣ (record fields).align :=
  align_dvd_align (logAlign_le_maxLogAlign i)

theorem size_le_union (i : Fin n) : (fields i).size ≤ (union fields).size :=
  (size_le_maxSize i).trans (le_roundUp _ (Nat.two_pow_pos _))

theorem align_dvd_union (i : Fin n) : (fields i).align ∣ (union fields).align :=
  align_dvd_align (logAlign_le_maxLogAlign i)

end Aggregate

end Layout

/-- A cell that holds a value of layout `F` at an offset its alignment divides. -/
structure Place (W F : Layout) extends Cell W.size F.size where
  align_dvd_offset : F.align ∣ offset
  align_dvd_align : F.align ∣ W.align

namespace Place
variable {W F G : Layout}

/-- A value at the start of a layout that is at least as large and as aligned. -/
def start (hsize : F.size ≤ W.size) (halign : F.align ∣ W.align) : Place W F :=
  ⟨⟨0, by omega⟩, Nat.dvd_zero _, halign⟩

/-- The whole layout. -/
def whole (W : Layout) : Place W W := start le_rfl dvd_rfl

@[simp] theorem get_whole (b : Bytes W.size) : (whole W).get b = b :=
  Bytes.ext (by
    have h := b.length_eq
    simp [Cell.get, whole, start, ← h])

@[simp] theorem put_whole (b x : Bytes W.size) : (whole W).put b x = x := by
  rw [← get_whole ((whole W).put b x), Cell.get_put]

def element (F : Layout) {n : ℕ} (i : Fin n) : Place (F.array n) F :=
  ⟨⟨i * F.size, by
    have h : (i + 1) * F.size ≤ n * F.size := Nat.mul_le_mul_right _ i.isLt
    rw [Nat.add_mul, Nat.one_mul] at h
    exact h⟩, Dvd.dvd.mul_left F.align_dvd_size _, dvd_refl _⟩

theorem element_disjoint {n : ℕ} {i j : Fin n} (h : i ≠ j) :
    Disjoint (element F i).region (element F j).region := by
  have key : ∀ {i j : Fin n}, i < j → Disjoint (element F i).region (element F j).region := by
    intro i j hij
    apply Cell.disjoint_of_le
    have hm : (i + 1) * F.size ≤ j * F.size := Nat.mul_le_mul_right _ hij
    rw [Nat.add_mul, Nat.one_mul] at hm
    exact hm
  rcases lt_or_gt_of_ne h with h | h
  · exact key h
  · exact (key h).symm

/-- Field `i` of a `repr(C)` record. -/
def field {n : ℕ} (fields : Fin n → Layout) (i : Fin n) : Place (Layout.record fields) (fields i) :=
  ⟨⟨Layout.fieldOffset fields i, Layout.fieldOffset_bound i⟩,
    Layout.align_dvd_fieldOffset i, Layout.align_dvd_record i⟩

theorem field_disjoint {n : ℕ} {fields : Fin n → Layout} {i j : Fin n} (h : i ≠ j) :
    Disjoint (field fields i).region (field fields j).region := by
  rcases lt_or_gt_of_ne h with h | h
  · exact Cell.disjoint_of_le (Layout.fieldOffset_lt h)
  · exact (Cell.disjoint_of_le (Layout.fieldOffset_lt h)).symm

/-- Member `i` of a `repr(C)` union. -/
def member {n : ℕ} (fields : Fin n → Layout) (i : Fin n) : Place (Layout.union fields) (fields i) :=
  start (Layout.size_le_union i) (Layout.align_dvd_union i)

/-- The value inside an alignment wrapper. -/
def raised (F : Layout) (logAlign : ℕ) : Place (F.raise logAlign) F :=
  start (Layout.size_le_raise F logAlign) (Layout.align_dvd_align (le_max_left _ _))

/-- A place inside a place. -/
def comp (p : Place W F) (q : Place F G) : Place W G :=
  ⟨p.toCell.comp q.toCell,
    dvd_add (q.align_dvd_align.trans p.align_dvd_offset) q.align_dvd_offset,
    q.align_dvd_align.trans p.align_dvd_align⟩

end Place

end Storage
