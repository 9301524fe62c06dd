import ZeroSchema.Access.Input
import ZeroSchema.Library.Word

/-! The checked ranges of the code, on machine words of any width: they succeed exactly when the
range of natural numbers is in bounds, and are that range. On `usize` they are the checks of the
checked inputs. -/
namespace ZeroSchema
open Storage Control

namespace Word
variable {w : ℕ}

/-- Computes an in-bounds range after checking addition for overflow. -/
def checkedRange (available offset length : BitVec w) : Except LayoutError (WordRange w) :=
  match checkedAdd offset length with
  | none => .error .offsetOverflow
  | some stop =>
    if available < stop then .error (.insufficientBytes stop.toNat available.toNat)
    else .ok ⟨offset, stop⟩

/-- Computes one element's byte range, rejecting multiplication and addition overflow. -/
def checkedElementRange (available index stride elementSize : BitVec w) :
    Except LayoutError (WordRange w) :=
  match checkedMul index stride with
  | none => .error .offsetOverflow
  | some offset => checkedRange available offset elementSize

/-- The offset alone, whatever the bounds of the array are. -/
def checkedElementOffset (index stride : BitVec w) : Except LayoutError (BitVec w) :=
  match checkedMul index stride with
  | none => .error .offsetOverflow
  | some offset => .ok offset

def checkedPayloadRange (available payloadOffset payloadSize : BitVec w) :
    Except LayoutError (WordRange w) := checkedRange available payloadOffset payloadSize

/-- Checks the ranges of a tag and a payload before either is accessed. -/
def checkedTaggedRanges (available tagOffset tagSize payloadOffset payloadSize : BitVec w) :
    Except LayoutError (WordRange w × WordRange w) := do
  let tag ← checkedRange available tagOffset tagSize
  let payload ← checkedPayloadRange available payloadOffset payloadSize
  .ok (tag, payload)

/-- Copies `source` into one bounded range; indexing out of bounds or copying from a slice of
another length would panic. -/
def copyBytesAt (destination : List UInt8) (offset : BitVec w) (source : List UInt8) :
    Outcome LayoutError (List UInt8) :=
  match checkedRange (BitVec.ofNat w destination.length) offset (BitVec.ofNat w source.length) with
  | .error e => .err e
  | .ok range =>
    if range.stop.toNat ≤ destination.length ∧
        range.stop.toNat = range.start.toNat + source.length then
      .ok (destination.take range.start.toNat ++ source ++ destination.drop range.stop.toNat)
    else .unreachable

/-- The exact range, on the natural numbers. -/
def Spans (r : WordRange w) (offset length available : ℕ) : Prop :=
  offset + length ≤ available ∧ r.start.toNat = offset ∧ r.stop.toNat = offset + length

theorem Spans.positions {r : WordRange w} {offset length available : ℕ}
    (h : Spans r offset length available) : r.positions = Set.Ico offset (offset + length) := by
  unfold WordRange.positions
  rw [h.2.1, h.2.2]

section
variable {available offset length index stride size : BitVec w} {r : WordRange w}

theorem checkedRange_eq_ok : checkedRange available offset length = .ok r ↔
    Spans r offset.toNat length.toNat available.toNat := by
  have hbound := available.isLt
  unfold checkedRange Spans
  cases hadd : checkedAdd offset length with
  | none =>
    have hover := checkedAdd_eq_none.mp hadd
    constructor
    · intro h
      cases h
    · intro h
      omega
  | some stop =>
    have hstop := checkedAdd_eq_some.mp hadd
    by_cases hlt : available < stop
    · have hlt' : available.toNat < stop.toNat := hlt
      simp only [if_pos hlt]
      constructor
      · intro h
        cases h
      · intro h
        omega
    · have hle : stop.toNat ≤ available.toNat := not_lt.mp hlt
      simp only [if_neg hlt, Except.ok.injEq]
      constructor
      · intro h
        rw [← h]
        exact ⟨by omega, rfl, hstop⟩
      · intro h
        have hstart : r.start = offset := BitVec.eq_of_toNat_eq h.2.1
        have hend : r.stop = stop := BitVec.eq_of_toNat_eq (h.2.2.trans hstop.symm)
        rw [← hstart, ← hend]

theorem checkedElementRange_eq_ok : checkedElementRange available index stride size = .ok r ↔
    Spans r (index.toNat * stride.toNat) size.toNat available.toNat := by
  have hbound := available.isLt
  unfold checkedElementRange
  cases hmul : checkedMul index stride with
  | none =>
    have hover := checkedMul_eq_none.mp hmul
    unfold Spans
    constructor
    · intro h
      cases h
    · intro h
      omega
  | some offset =>
    have hoffset := checkedMul_eq_some.mp hmul
    show checkedRange available offset size = .ok r ↔ _
    rw [checkedRange_eq_ok, hoffset]

theorem checkedRange_isOk (h : offset.toNat + length.toNat ≤ available.toNat) :
    ∃ r, checkedRange available offset length = .ok r := by
  have hlt : offset.toNat + length.toNat < 2 ^ w := lt_of_le_of_lt h available.isLt
  refine ⟨⟨offset, BitVec.ofNat w (offset.toNat + length.toNat)⟩, ?_⟩
  rw [checkedRange_eq_ok]
  refine ⟨h, rfl, ?_⟩
  rw [BitVec.toNat_ofNat, Nat.mod_eq_of_lt hlt]

theorem checkedElementRange_isOk
    (h : index.toNat * stride.toNat + size.toNat ≤ available.toNat) :
    ∃ r, checkedElementRange available index stride size = .ok r := by
  have hlt : index.toNat * stride.toNat + size.toNat < 2 ^ w := lt_of_le_of_lt h available.isLt
  refine ⟨⟨BitVec.ofNat w (index.toNat * stride.toNat),
    BitVec.ofNat w (index.toNat * stride.toNat + size.toNat)⟩, ?_⟩
  rw [checkedElementRange_eq_ok]
  refine ⟨h, ?_, ?_⟩
  · rw [BitVec.toNat_ofNat, Nat.mod_eq_of_lt (by omega)]
  · rw [BitVec.toNat_ofNat, Nat.mod_eq_of_lt hlt]

/-- Both ranges are checked, each on its own. -/
theorem checkedTaggedRanges_eq_ok {available tagOffset tagSize payloadOffset payloadSize : BitVec w}
    {tag payload : WordRange w} :
    checkedTaggedRanges available tagOffset tagSize payloadOffset payloadSize = .ok (tag, payload) ↔
      Spans tag tagOffset.toNat tagSize.toNat available.toNat ∧
      Spans payload payloadOffset.toNat payloadSize.toNat available.toNat := by
  rw [← checkedRange_eq_ok, ← checkedRange_eq_ok]
  unfold checkedTaggedRanges checkedPayloadRange
  cases checkedRange available tagOffset tagSize with
  | error e => simp [bind, Except.bind]
  | ok r =>
    cases checkedRange available payloadOffset payloadSize with
    | error e => simp [bind, Except.bind]
    | ok r' => simp [bind, Except.bind]

/-- A copy never panics, and it changes its own range only. -/
theorem copyBytesAt_eq_ok {destination source out : List UInt8}
    (hd : destination.length < 2 ^ w) (hs : source.length < 2 ^ w) :
    copyBytesAt destination offset source = .ok out ↔
      offset.toNat + source.length ≤ destination.length ∧
      out = destination.take offset.toNat ++ source ++
        destination.drop (offset.toNat + source.length) := by
  have hdest : (BitVec.ofNat w destination.length).toNat = destination.length := by
    rw [BitVec.toNat_ofNat, Nat.mod_eq_of_lt hd]
  have hsrc : (BitVec.ofNat w source.length).toNat = source.length := by
    rw [BitVec.toNat_ofNat, Nat.mod_eq_of_lt hs]
  unfold copyBytesAt
  cases hrange : checkedRange (BitVec.ofNat w destination.length) offset
      (BitVec.ofNat w source.length) with
  | error e =>
    constructor
    · intro h
      cases h
    · intro h
      have hle : offset.toNat + (BitVec.ofNat w source.length).toNat ≤
          (BitVec.ofNat w destination.length).toNat := by
        rw [hdest, hsrc]
        exact h.1
      obtain ⟨r, hr⟩ := checkedRange_isOk hle
      rw [hrange] at hr
      cases hr
  | ok r =>
    have hspans := checkedRange_eq_ok.mp hrange
    rw [hdest, hsrc] at hspans
    obtain ⟨hle, hstart, hstop⟩ := hspans
    have hinside : r.stop.toNat ≤ destination.length ∧
        r.stop.toNat = r.start.toNat + source.length := by omega
    simp only [if_pos hinside, Outcome.ok.injEq]
    rw [hstart, hstop]
    constructor
    · intro h
      exact ⟨hle, h.symm⟩
    · intro h
      exact h.2.symm

end

/-! ### Arrays -/

/-- So many elements, each within its stride, that fit their span. -/
structure ArrayFits (available stride size count : BitVec w) : Prop where
  element : size.toNat ≤ stride.toNat
  span : count.toNat * stride.toNat ≤ available.toNat

/-- The laws of the element ranges of an array. -/
structure ElementRanges (available stride size count : BitVec w)
    (range : Fin count.toNat → WordRange w) : Prop where
  selected : ∀ i : Fin count.toNat,
    checkedElementRange available (BitVec.ofNat w i) stride size = .ok (range i)
  increasing : ∀ i j, i < j → (range i).stop.toNat ≤ (range j).start.toNat
  disjoint : ∀ i j, i ≠ j → Disjoint (range i).positions (range j).positions
  covers : (⋃ i, (range i).positions) = Set.Iio (count.toNat * stride.toNat) ↔
    size = stride ∨ count = 0

theorem elementRanges {available stride size count : BitVec w}
    (h : ArrayFits available stride size count) :
    ∃ range, ElementRanges available stride size count range := by
  have hindex (i : Fin count.toNat) : (BitVec.ofNat w i).toNat = i := by
    rw [BitVec.toNat_ofNat, Nat.mod_eq_of_lt (lt_trans i.isLt count.isLt)]
  have hok (i : Fin count.toNat) :
      ∃ r, checkedElementRange available (BitVec.ofNat w i) stride size = .ok r := by
    apply checkedElementRange_isOk
    rw [hindex]
    exact (strided_le h.element i.isLt).trans h.span
  choose range hrange using hok
  have hspans (i : Fin count.toNat) :
      Spans (range i) (i * stride.toNat) size.toNat available.toNat := by
    have hi := checkedElementRange_eq_ok.mp (hrange i)
    rwa [hindex] at hi
  refine ⟨range, hrange, ?_, ?_, ?_⟩
  · intro i j hij
    rw [(hspans i).2.2, (hspans j).2.1]
    exact strided_le h.element hij
  · intro i j hij
    rw [(hspans i).positions, (hspans j).positions]
    exact strided_disjoint h.element fun heq => hij (Fin.ext heq)
  · have hpositions : (fun i => (range i).positions) = fun i : Fin count.toNat =>
        Set.Ico (i * stride.toNat) (i * stride.toNat + size.toNat) :=
      funext fun i => (hspans i).positions
    rw [hpositions, strided_cover h.element, BitVec.toNat_inj]
    have hzero : count.toNat = 0 ↔ count = 0 := by
      rw [← BitVec.toNat_inj]
      rfl
    rw [hzero]

/-- Checked ranges never wrap, and those of an array's elements partition it up to gaps. -/
theorem checked_ranges_exact (w : ℕ) :
    (∀ (available offset length : BitVec w) (r : WordRange w),
      checkedRange available offset length = .ok r ↔
        Spans r offset.toNat length.toNat available.toNat) ∧
    (∀ (available index stride size : BitVec w) (r : WordRange w),
      checkedElementRange available index stride size = .ok r ↔
        Spans r (index.toNat * stride.toNat) size.toNat available.toNat) ∧
    ∀ available stride size count : BitVec w, ArrayFits available stride size count →
      ∃ range, ElementRanges available stride size count range := by
  refine ⟨?_, ?_, ?_⟩
  · intro available offset length r
    exact checkedRange_eq_ok
  · intro available index stride size r
    exact checkedElementRange_eq_ok
  · intro available stride size count h
    exact elementRanges h

/-- Three elements of three bytes, four bytes apart, in twelve. -/
theorem checked_ranges_exact_byte :
    checkedElementRange 12#8 2#8 4#8 3#8 = .ok ⟨8#8, 11#8⟩ ∧
      ∃ range, ElementRanges 12#8 4#8 3#8 3#8 range :=
  ⟨((checked_ranges_exact 8).2.1 _ _ _ _ _).mpr ⟨by decide, rfl, rfl⟩,
    (checked_ranges_exact 8).2.2 _ _ _ _ ⟨by decide, by decide⟩⟩

/-! ### The checks of the checked inputs -/

section
variable [Target] {available offset length : ℕ}

private theorem toNat_usize (h : offset ≤ usizeMax) :
    (BitVec.ofNat Target.usizeBits offset).toNat = offset := by
  have hpos : 0 < 2 ^ Target.usizeBits := Nat.two_pow_pos _
  unfold usizeMax at h
  rw [BitVec.toNat_ofNat, Nat.mod_eq_of_lt (by omega)]

/-- On `usize`, a checked range is the cell of a checked input. -/
theorem checkedRange_usize (ha : available ≤ usizeMax) (ho : offset ≤ usizeMax)
    (hl : length ≤ usizeMax) :
    (checkedRange (BitVec.ofNat Target.usizeBits available) (BitVec.ofNat _ offset)
      (BitVec.ofNat _ length)).map (fun r => (r.start.toNat, r.stop.toNat)) =
    (ZeroSchema.checkedRange available offset length).map fun cell =>
      (cell.offset, cell.offset + length) := by
  have hpos : 0 < 2 ^ Target.usizeBits := Nat.two_pow_pos _
  unfold checkedRange ZeroSchema.checkedRange
  cases hadd : checkedAdd (BitVec.ofNat Target.usizeBits offset) (BitVec.ofNat _ length) with
  | none =>
    have hover := checkedAdd_eq_none.mp hadd
    rw [toNat_usize ho, toNat_usize hl] at hover
    have hlt : usizeMax < offset + length := by
      unfold usizeMax
      omega
    rw [if_pos hlt]
    rfl
  | some stop =>
    have hstop := checkedAdd_eq_some.mp hadd
    have hbound := stop.isLt
    rw [toNat_usize ho, toNat_usize hl] at hstop
    have hle : ¬usizeMax < offset + length := by
      unfold usizeMax
      omega
    rw [if_neg hle]
    have hlt : BitVec.ofNat Target.usizeBits available < stop ↔ available < offset + length := by
      rw [BitVec.lt_def, toNat_usize ha, hstop]
    by_cases h : available < offset + length
    · rw [dif_pos h]
      simp only [if_pos (hlt.mpr h), toNat_usize ha, hstop]
      rfl
    · rw [dif_neg h]
      simp only [if_neg (mt hlt.mp h), Except.map, toNat_usize ho, hstop]

theorem checkedElementOffset_usize {index stride : ℕ} (hi : index ≤ usizeMax)
    (hs : stride ≤ usizeMax) :
    (checkedElementOffset (BitVec.ofNat Target.usizeBits index) (BitVec.ofNat _ stride)).map
      BitVec.toNat = ZeroSchema.checkedElementOffset index stride := by
  have hpos : 0 < 2 ^ Target.usizeBits := Nat.two_pow_pos _
  unfold checkedElementOffset ZeroSchema.checkedElementOffset
  cases hmul : checkedMul (BitVec.ofNat Target.usizeBits index) (BitVec.ofNat _ stride) with
  | none =>
    have hover := checkedMul_eq_none.mp hmul
    rw [toNat_usize hi, toNat_usize hs] at hover
    have hlt : usizeMax < index * stride := by
      unfold usizeMax
      omega
    rw [if_pos hlt]
    rfl
  | some offset =>
    have hoffset := checkedMul_eq_some.mp hmul
    have hbound := offset.isLt
    rw [toNat_usize hi, toNat_usize hs] at hoffset
    have hle : ¬usizeMax < index * stride := by
      unfold usizeMax
      omega
    rw [if_neg hle, ← hoffset]
    rfl

end

end Word

end ZeroSchema
