import ZeroSchema.Library.Loop
import Mathlib.Order.CompletePartialOrder
import Mathlib.Order.Interval.Set.Disjoint

/-! Byte strings of a fixed length and the cells (contiguous sub-ranges) inside them.
A cell is a lens: it reads and replaces its own range and leaves every other byte alone. -/
namespace Storage
open Control

structure Bytes (n : ℕ) where
  toList : List UInt8
  length_eq : toList.length = n
deriving DecidableEq

namespace Bytes
variable {n : ℕ}

@[ext] theorem ext {b b' : Bytes n} (h : b.toList = b'.toList) : b = b' := by
  cases b; cases b'; congr

/-- The byte at a position; none past the end. -/
def view (b : Bytes n) (k : ℕ) : Option UInt8 := b.toList[k]?

theorem eq_of_view {b b' : Bytes n} (h : ∀ k, b'.view k = b.view k) : b' = b :=
  ext (List.ext_getElem? h)

/-- Agreement on the leading bytes is agreement of the leading bytes. -/
theorem agreeOn_Iio {b b' : Bytes n} {k : ℕ} :
    AgreeOn view (Set.Iio k) b b' ↔ b'.toList.take k = b.toList.take k := by
  constructor
  · intro h
    apply List.ext_getElem?
    intro i
    rw [List.getElem?_take, List.getElem?_take]
    split_ifs with hi
    · exact h i hi
    · rfl
  · intro h i hi
    have hlt : i < k := hi
    have hview := congrArg (fun l => l[i]?) h
    simp only [List.getElem?_take_of_lt hlt] at hview
    exact hview

/-- There is nothing to disagree on past the end. -/
theorem agreeOn_past (b b' : Bytes n) : AgreeOn view (Set.Iio n)ᶜ b b' := by
  intro k hk
  have hle : n ≤ k := not_lt.mp hk
  have hb := b.length_eq
  have hb' := b'.length_eq
  unfold view
  rw [List.getElem?_eq_none (by omega), List.getElem?_eq_none (by omega)]

def zero (n : ℕ) : Bytes n := ⟨List.replicate n 0, List.length_replicate⟩

def IsZero (b : Bytes n) : Prop := ∀ x ∈ b.toList, x = 0

instance (b : Bytes n) : Decidable b.IsZero :=
  inferInstanceAs (Decidable (∀ x ∈ b.toList, x = 0))

theorem isZero_zero : (zero n).IsZero := fun _ hx => List.eq_of_mem_replicate hx

theorem isZero_congr {m : ℕ} {b : Bytes n} {b' : Bytes m} (h : b.toList = b'.toList) :
    b.IsZero ↔ b'.IsZero := by
  unfold IsZero
  rw [h]

theorem isZero_iff {b : Bytes n} : b.IsZero ↔ b = zero n := by
  constructor
  · intro h
    exact ext (List.eq_replicate_iff.mpr ⟨b.length_eq, h⟩)
  · rintro rfl
    exact isZero_zero

/-- Reinterprets a byte string at an equal length. -/
def cast {m : ℕ} (h : n = m) (b : Bytes n) : Bytes m := ⟨b.toList, b.length_eq.trans h⟩

end Bytes

/-- A contiguous range of `m` bytes inside a string of `n` bytes. -/
structure Cell (n m : ℕ) where
  offset : ℕ
  bound : offset + m ≤ n

namespace Cell
variable {n m k : ℕ}

/-- The positions of the cell in the enclosing string. -/
def region (c : Cell n m) : Set ℕ := Set.Ico c.offset (c.offset + m)

def get (c : Cell n m) (b : Bytes n) : Bytes m :=
  ⟨(b.toList.drop c.offset).take m, by
    have := c.bound
    simp [b.length_eq]
    omega⟩

def put (c : Cell n m) (b : Bytes n) (x : Bytes m) : Bytes n :=
  ⟨b.toList.take c.offset ++ x.toList ++ b.toList.drop (c.offset + m), by
    have := c.bound
    simp [b.length_eq, x.length_eq]
    omega⟩

theorem view_get (c : Cell n m) (b : Bytes n) (i : ℕ) :
    (c.get b).view i = if i < m then b.view (c.offset + i) else none := by
  simp only [Bytes.view, get, List.getElem?_take, List.getElem?_drop]

theorem view_put (c : Cell n m) (b : Bytes n) (x : Bytes m) (i : ℕ) :
    (c.put b x).view i =
      if c.offset ≤ i ∧ i < c.offset + m then x.view (i - c.offset) else b.view i := by
  have hb := b.length_eq
  have hx := x.length_eq
  have hc := c.bound
  have hlen : (b.toList.take c.offset).length = c.offset := by
    rw [List.length_take]
    omega
  simp only [Bytes.view, put]
  split_ifs with h
  · rw [List.getElem?_append_left (by simp only [List.length_append]; omega),
      List.getElem?_append_right (by omega), hlen]
  · rcases not_and_or.mp h with h | h
    · rw [List.append_assoc, List.getElem?_append_left (by omega),
        List.getElem?_take_of_lt (by omega)]
    · have hsum : (b.toList.take c.offset ++ x.toList).length = c.offset + m := by
        simp only [List.length_append]
        omega
      rw [List.getElem?_append_right (by omega), hsum, List.getElem?_drop]
      congr 1
      omega

@[simp] theorem get_put (c : Cell n m) (b : Bytes n) (x : Bytes m) : c.get (c.put b x) = x := by
  refine Bytes.eq_of_view fun i => ?_
  rw [view_get, view_put]
  split_ifs with h₁ h₂
  · congr 1
    omega
  · omega
  · exact (List.getElem?_eq_none (by have := x.length_eq; omega)).symm

@[simp] theorem put_get (c : Cell n m) (b : Bytes n) : c.put b (c.get b) = b := by
  refine Bytes.eq_of_view fun i => ?_
  rw [view_put, view_get]
  split_ifs with h₁ h₂
  · congr 1
    omega
  · omega
  · rfl

/-- What is put later replaces what was put before. -/
theorem put_put (c : Cell n m) (b : Bytes n) (x y : Bytes m) :
    c.put (c.put b x) y = c.put b y := by
  refine Bytes.eq_of_view fun i => ?_
  simp only [view_put]
  split_ifs <;> rfl

/-- Cells that do not overlap are written in any order. -/
theorem put_comm {c : Cell n m} {d : Cell n k} (h : Disjoint c.region d.region) (b : Bytes n)
    (x : Bytes m) (y : Bytes k) : d.put (c.put b x) y = c.put (d.put b y) x := by
  refine Bytes.eq_of_view fun i => ?_
  simp only [view_put]
  by_cases hc : c.offset ≤ i ∧ i < c.offset + m
  · have hd : ¬(d.offset ≤ i ∧ i < d.offset + k) := Set.disjoint_left.mp h hc
    rw [if_neg hd, if_pos hc, if_pos hc]
  · rw [if_neg hc, if_neg hc]

theorem agreeOn_put (c : Cell n m) (b : Bytes n) (x : Bytes m) :
    AgreeOn Bytes.view c.regionᶜ b (c.put b x) := by
  intro i hi
  rw [view_put]
  exact if_neg hi

theorem get_congr {c : Cell n m} {b b' : Bytes n} (h : AgreeOn Bytes.view c.region b b') :
    c.get b' = c.get b := by
  refine Bytes.eq_of_view fun i => ?_
  rw [view_get, view_get]
  split_ifs with hi
  · exact h _ ⟨Nat.le_add_right _ _, by omega⟩
  · rfl

theorem get_put_of_disjoint {c : Cell n m} {d : Cell n k} (h : Disjoint d.region c.region)
    (b : Bytes n) (x : Bytes m) : d.get (c.put b x) = d.get b :=
  get_congr ((c.agreeOn_put b x).mono fun _ hi => Set.disjoint_left.mp h hi)

theorem disjoint_of_le {c : Cell n m} {d : Cell n k} (h : c.offset + m ≤ d.offset) :
    Disjoint c.region d.region := Set.disjoint_left.mpr fun i hi hi' => by
  have h₁ := hi.2
  have h₂ := hi'.1
  omega

@[simp] theorem get_zero (c : Cell n m) : c.get (Bytes.zero n) = Bytes.zero m := by
  rw [← Bytes.isZero_iff]
  intro x hx
  exact Bytes.isZero_zero x (List.mem_of_mem_drop (List.mem_of_mem_take hx))

/-- Positions inside the cell as positions of the enclosing string. -/
def image (c : Cell n m) (X : Set ℕ) : Set ℕ := (c.offset + ·) '' X

theorem mem_image {c : Cell n m} {X : Set ℕ} {i : ℕ} :
    i ∈ c.image X ↔ c.offset ≤ i ∧ i - c.offset ∈ X := by
  constructor
  · rintro ⟨j, hj, rfl⟩
    exact ⟨Nat.le_add_right _ _, by simpa using hj⟩
  · rintro ⟨hle, hi⟩
    exact ⟨i - c.offset, hi, Nat.add_sub_cancel' hle⟩

theorem image_mono {c : Cell n m} {X Y : Set ℕ} (h : X ⊆ Y) : c.image X ⊆ c.image Y :=
  Set.image_mono h

theorem image_Iio (c : Cell n m) : c.image (Set.Iio m) = c.region := by
  ext i
  rw [mem_image]
  unfold region
  constructor
  · rintro ⟨hle, hlt⟩
    have hlt' : i - c.offset < m := hlt
    exact ⟨hle, by omega⟩
  · rintro ⟨hle, hlt⟩
    have hlt' : i - c.offset < m := by omega
    exact ⟨hle, hlt'⟩

theorem image_subset_region (c : Cell n m) {X : Set ℕ} (hX : X ⊆ Set.Iio m) :
    c.image X ⊆ c.region := by
  rw [← image_Iio]
  exact image_mono hX

theorem image_subset_Iio (c : Cell n m) {X : Set ℕ} (hX : X ⊆ Set.Iio m) :
    c.image X ⊆ Set.Iio n := by
  intro i hi
  have hlt := (c.image_subset_region hX hi).2
  have hbound := c.bound
  show i < n
  omega

theorem agreeOn_get {c : Cell n m} {X : Set ℕ} {b b' : Bytes n}
    (h : AgreeOn Bytes.view (c.image X) b b') : AgreeOn Bytes.view X (c.get b) (c.get b') := by
  intro i hi
  rw [view_get, view_get]
  split_ifs with hlt
  · exact h _ ⟨i, hi, rfl⟩
  · rfl

theorem agreeOn_image {c : Cell n m} {X : Set ℕ} (hX : X ⊆ Set.Iio m) {b b' : Bytes n}
    (h : AgreeOn Bytes.view X (c.get b) (c.get b')) : AgreeOn Bytes.view (c.image X) b b' := by
  rintro _ ⟨i, hi, rfl⟩
  have hview := h i hi
  have hlt : i < m := hX hi
  rwa [view_get, view_get, if_pos hlt, if_pos hlt] at hview

/-- What changed in the cell is all that changed. -/
theorem agreeOn_put_image {c : Cell n m} {X : Set ℕ} {b : Bytes n} {x : Bytes m}
    (h : AgreeOn Bytes.view Xᶜ (c.get b) x) :
    AgreeOn Bytes.view (c.image X)ᶜ b (c.put b x) := by
  intro i hi
  rw [view_put]
  split_ifs with hc
  · have hnot : i - c.offset ∉ X := fun hx => hi (mem_image.mpr ⟨hc.1, hx⟩)
    have hview := h (i - c.offset) hnot
    rw [view_get, if_pos (by omega)] at hview
    rw [hview]
    congr 1
    omega
  · rfl

theorem agreeOn_region {c : Cell n m} {b b' : Bytes n} (h : c.get b' = c.get b) :
    AgreeOn Bytes.view c.region b b' := by
  rw [← image_Iio]
  apply agreeOn_image subset_rfl
  intro i _
  rw [h]

section Congr
variable {n' m' : ℕ} {c : Cell n m} {d : Cell n' m'} {b : Bytes n} {b' : Bytes n'}

/-- Cells at one place of equal bytes. -/
theorem toList_get_congr (ho : c.offset = d.offset) (hm : m = m') (hb : b.toList = b'.toList) :
    (c.get b).toList = (d.get b').toList := by
  simp only [get, ho, hm, hb]

theorem toList_put_congr (ho : c.offset = d.offset) (hm : m = m') (hb : b.toList = b'.toList)
    {x : Bytes m} {x' : Bytes m'} (hx : x.toList = x'.toList) :
    (c.put b x).toList = (d.put b' x').toList := by
  simp only [put, ho, hm, hb, hx]

theorem image_congr (ho : c.offset = d.offset) (X : Set ℕ) : c.image X = d.image X := by
  simp only [image, ho]

theorem region_congr (ho : c.offset = d.offset) (hm : m = m') : c.region = d.region := by
  simp only [region, ho, hm]

end Congr

/-- A cell of a cell is a cell. -/
def comp (c : Cell n m) (d : Cell m k) : Cell n k :=
  ⟨c.offset + d.offset, by have := c.bound; have := d.bound; omega⟩

theorem get_comp (c : Cell n m) (d : Cell m k) (b : Bytes n) :
    (c.comp d).get b = d.get (c.get b) := by
  refine Bytes.eq_of_view fun i => ?_
  have hd := d.bound
  simp only [view_get, comp, Nat.add_assoc]
  split_ifs <;> first | rfl | omega

theorem put_comp (c : Cell n m) (d : Cell m k) (b : Bytes n) (x : Bytes k) :
    (c.comp d).put b x = c.put b (d.put (c.get b) x) := by
  refine Bytes.eq_of_view fun i => ?_
  have hd := d.bound
  simp only [view_put, view_get, comp]
  split_ifs with h₁ h₂ h₃ h₄ <;> first | rfl | omega | skip
  · congr 1
    omega
  · congr 1
    omega

theorem comp_region_subset (c : Cell n m) (d : Cell m k) : (c.comp d).region ⊆ c.region := by
  intro i hi
  have h₁ := hi.1
  have h₂ := hi.2
  have h₃ := d.bound
  simp only [comp] at h₁ h₂
  exact ⟨by omega, by omega⟩

theorem comp_disjoint {l : ℕ} (c : Cell n m) {d : Cell m k} {e : Cell m l}
    (h : Disjoint d.region e.region) : Disjoint (c.comp d).region (c.comp e).region := by
  refine Set.disjoint_left.mpr fun i hd he => ?_
  have h₁ := hd.1
  have h₂ := hd.2
  have h₃ := he.1
  have h₄ := he.2
  simp only [comp] at h₁ h₂ h₃ h₄
  have hd' : i - c.offset ∈ d.region := ⟨by omega, by omega⟩
  have he' : i - c.offset ∈ e.region := ⟨by omega, by omega⟩
  exact Set.disjoint_left.mp h hd' he'

end Cell

end Storage
