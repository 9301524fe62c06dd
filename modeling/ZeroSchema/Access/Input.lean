import ZeroSchema.Error

/-! Checked byte inputs. An `Input W` is an exact, aligned span for the wire layout `W`;
shared and exclusive inputs differ only in whether a released child is written back. -/
namespace ZeroSchema
open Storage Control
variable [Target]

/-- A byte slice of the machine: where it starts and what it holds. -/
structure Slice (n : ℕ) where
  address : ℕ
  bytes : Bytes n
  fits : n ≤ isizeMax

/-- Computes an in-bounds range after checking addition for overflow. -/
def checkedRange (available offset length : ℕ) : Except LayoutError (Cell available length) :=
  if usizeMax < offset + length then .error .offsetOverflow
  else if h : available < offset + length then
    .error (.insufficientBytes (offset + length) available)
  else .ok ⟨offset, by omega⟩

def checkedElementOffset (index stride : ℕ) : Except LayoutError ℕ :=
  if usizeMax < index * stride then .error .offsetOverflow else .ok (index * stride)

structure Input (W : Layout) where
  address : ℕ
  bytes : Bytes W.size
  aligned : W.align ∣ address
  fits : W.size ≤ isizeMax

namespace Input
variable {W F : Layout} {n : ℕ}

@[ext] theorem ext {x y : Input W} (ha : x.address = y.address) (hb : x.bytes = y.bytes) :
    x = y := by
  cases x; cases y; simp_all

/-- The exact constructor: the length is checked first, then the alignment. -/
def fromChecked (W : Layout) (s : Slice n) : Except LayoutError (Input W) :=
  if hsize : n = W.size then
    if halign : s.address % W.align = 0 then
      .ok ⟨s.address, s.bytes.cast hsize, Nat.dvd_of_mod_eq_zero halign, hsize ▸ s.fits⟩
    else .error (.misaligned W.align s.address)
  else .error (.incorrectSize W.size n)

def slice (input : Input W) (range : Cell W.size n) : Slice n :=
  ⟨input.address + range.offset, range.get input.bytes,
    ((Nat.le_add_left _ _).trans range.bound).trans input.fits⟩

/-- A bounded byte subrange, without an alignment or a layout of its own. -/
def subrangeBytes (input : Input W) (offset length : ℕ) : Except LayoutError (Slice length) :=
  (checkedRange W.size offset length).map input.slice

/-- Selects another exact, checked wire subrange. -/
def subrange (input : Input W) (F : Layout) (offset : ℕ) : Except LayoutError (Input F) :=
  input.subrangeBytes offset F.size >>= fromChecked F

/-- Ends an exclusive reborrow of `n` bytes: the parent sees what the child wrote. -/
def releaseBytes (input : Input W) (offset : ℕ) (bytes : Bytes n) : Input W :=
  if h : offset + n ≤ W.size then
    { input with bytes := (⟨offset, h⟩ : Cell W.size n).put input.bytes bytes }
  else input

def release (input : Input W) (offset : ℕ) (child : Input F) : Input W :=
  input.releaseBytes offset child.bytes

/-- Runs a commit on an exclusive subrange; a failed selection is an unreachable branch. -/
def subrangeMut (input : Input W) (F : Layout) (offset : ℕ)
    (commit : Input F → Option (Input F)) : Option (Input W) := do
  let child ← (input.subrange F offset).toOption
  let child ← commit child
  some (input.release offset child)

def subrangeBytesMut (input : Input W) (offset length : ℕ)
    (commit : Bytes length → Option (Bytes length)) : Option (Input W) := do
  let child ← (input.subrangeBytes offset length).toOption
  let bytes ← commit child.bytes
  some (input.releaseBytes offset bytes)

def isAllZero (input : Input W) : Bool := decide input.bytes.IsZero

/-- Zero-fills the complete checked input. -/
def clearAll (input : Input W) : Input W := { input with bytes := Bytes.zero W.size }

/-- The input a place selects. -/
def child (input : Input W) (p : Place W F) : Input F where
  address := input.address + p.offset
  bytes := p.get input.bytes
  aligned := dvd_add (p.align_dvd_align.trans input.aligned) p.align_dvd_offset
  fits := ((Nat.le_add_left _ _).trans p.bound).trans input.fits

/-- The input after a place was overwritten. -/
def put (input : Input W) (p : Cell W.size n) (x : Bytes n) : Input W :=
  { input with bytes := p.put input.bytes x }

/-- Overwrites the whole input. -/
def overwrite (input : Input W) (x : Bytes W.size) : Input W := { input with bytes := x }

/-- What can be observed of an input: its address, and the bytes by position. -/
def view (input : Input W) : Option ℕ → ℕ ⊕ Option UInt8
  | none => .inl input.address
  | some k => .inr (input.bytes.view k)

/-- The observations a place covers. -/
def covered (p : Cell W.size n) : Set (Option ℕ) := some '' p.region

@[simp] theorem bytes_overwrite (input : Input W) (x : Bytes W.size) :
    (input.overwrite x).bytes = x := rfl

@[simp] theorem bytes_child (input : Input W) (p : Place W F) :
    (input.child p).bytes = p.get input.bytes := rfl

@[simp] theorem bytes_put (input : Input W) (p : Cell W.size n) (x : Bytes n) :
    (input.put p x).bytes = p.put input.bytes x := rfl

@[simp] theorem bytes_clearAll (input : Input W) : input.clearAll.bytes = Bytes.zero W.size := rfl

theorem agreeOn_put (input : Input W) (p : Cell W.size n) (x : Bytes n) :
    AgreeOn view (covered p)ᶜ input (input.put p x) := by
  intro k hk
  cases k with
  | none => rfl
  | some k =>
    have hk' : k ∉ p.region := fun h => hk ⟨k, h, rfl⟩
    exact congrArg Sum.inr (p.agreeOn_put input.bytes x k hk')

theorem get_congr {input input' : Input W} {p : Cell W.size n}
    (h : AgreeOn view (covered p) input input') : p.get input'.bytes = p.get input.bytes :=
  Cell.get_congr fun k hk => Sum.inr.inj (h (some k) ⟨k, hk, rfl⟩)

theorem child_congr {input input' : Input W} {p : Place W F}
    (h : AgreeOn view (insert none (covered p.toCell)) input input') :
    input'.child p = input.child p := by
  have haddr : input'.address = input.address := Sum.inl.inj (h none (Set.mem_insert _ _))
  refine Input.ext ?_ (get_congr (h.mono (Set.subset_insert _ _)))
  exact congrArg (· + p.offset) haddr

omit [Target] in
theorem covered_disjoint {m : ℕ} {p : Cell W.size n} {q : Cell W.size m}
    (h : Disjoint p.region q.region) : Disjoint (covered p) (covered q) := by
  refine Set.disjoint_left.mpr ?_
  rintro _ ⟨k, hk, rfl⟩ ⟨k', hk', heq⟩
  obtain rfl := Option.some.inj heq
  exact Set.disjoint_left.mp h hk hk'

theorem isAllZero_eq_true {input : Input W} : input.isAllZero = true ↔ input.bytes.IsZero := by
  simp [isAllZero]

theorem le_usizeMax (input : Input W) (range : Cell W.size n) : n ≤ usizeMax :=
  (((Nat.le_add_left _ _).trans range.bound).trans input.fits).trans isizeMax_le_usizeMax

theorem checkedRange_cell (input : Input W) (range : Cell W.size n) :
    checkedRange W.size range.offset n = .ok range := by
  have h₁ := range.bound
  have h₂ := input.fits
  have h₃ := isizeMax_le_usizeMax
  unfold checkedRange
  rw [if_neg (by omega), dif_neg (by omega)]

/-- A range inside a checked input is always selectable. -/
theorem subrangeBytes_cell (input : Input W) (range : Cell W.size n) :
    input.subrangeBytes range.offset n = .ok (input.slice range) := by
  rw [subrangeBytes, checkedRange_cell input]
  rfl

theorem subrange_place (input : Input W) (p : Place W F) :
    input.subrange F p.offset = .ok (input.child p) := by
  rw [subrange, input.subrangeBytes_cell p.toCell]
  change fromChecked F _ = _
  have h : (input.slice p.toCell).address % F.align = 0 :=
    Nat.mod_eq_zero_of_dvd (input.child p).aligned
  rw [fromChecked, dif_pos rfl, dif_pos h]
  rfl

theorem releaseBytes_cell (input : Input W) (range : Cell W.size n) (x : Bytes n) :
    input.releaseBytes range.offset x = input.put range x := dif_pos range.bound

theorem release_place (input : Input W) (p : Place W F) (child : Input F) :
    input.release p.offset child = input.put p.toCell child.bytes :=
  input.releaseBytes_cell p.toCell child.bytes

theorem subrangeMut_place (input : Input W) (p : Place W F)
    (commit : Input F → Option (Input F)) :
    input.subrangeMut F p.offset commit =
      (commit (input.child p)).map fun child => input.put p.toCell child.bytes := by
  rw [subrangeMut, subrange_place]
  cases h : commit (input.child p) with
  | none => simp [Except.toOption, h]
  | some child => simp [Except.toOption, h, release_place]

theorem subrangeBytesMut_cell (input : Input W) (range : Cell W.size n)
    (commit : Bytes n → Option (Bytes n)) :
    input.subrangeBytesMut range.offset n commit =
      (commit (range.get input.bytes)).map (input.put range) := by
  rw [subrangeBytesMut, subrangeBytes_cell]
  cases h : commit (range.get input.bytes) with
  | none => simp [Except.toOption, slice, h]
  | some x => simp [Except.toOption, slice, h, releaseBytes_cell]

end Input

/-- Reports a layout failure through the owner of the selected field. -/
def Context.onLayout {α : Type} (ctx : Context) (x : Except LayoutError α) :
    Outcome SchemaError α := (Outcome.ofExcept x).mapErr ctx.layout

omit [Target] in
@[simp] theorem Context.onLayout_ok {α : Type} (ctx : Context) (a : α) :
    ctx.onLayout (.ok a) = .ok a := rfl

section
variable {W F : Layout} {n : ℕ} (ctx : Context) (input : Input W)

theorem Context.onLayout_subrange (p : Place W F) :
    ctx.onLayout (input.subrange F p.offset) = .ok (input.child p) := by
  rw [Input.subrange_place]
  rfl

theorem Context.onLayout_subrangeBytes (range : Cell W.size n) :
    ctx.onLayout (input.subrangeBytes range.offset n) = .ok (input.slice range) := by
  rw [Input.subrangeBytes_cell]
  rfl

end

/-- Every exact, aligned span is accepted as an input. -/
theorem fromChecked_exact {W : Layout} (s : Slice W.size) (h : W.align ∣ s.address) :
    ∃ input : Input W, Input.fromChecked W s = .ok input ∧ input.bytes = s.bytes := by
  refine ⟨⟨s.address, s.bytes, h, s.fits⟩, ?_, rfl⟩
  rw [Input.fromChecked, dif_pos rfl, dif_pos (Nat.mod_eq_zero_of_dvd h)]
  rfl

end ZeroSchema
