import ZeroSchema.Mutation.Writes
import ZeroSchema.Mutation.Handle
import ZeroSchema.Strings.Store

/-! The string codec at both levels: over the selected slices, and behind a string handle over
the wire of the field. -/
namespace ZeroSchema
open Storage Control Input
variable [Target]

/-- The declared data capacity in storage units, as the handle reports it. -/
def StringMut.capacity (s : StringIr) : ℕ := s.capacity

namespace StringIr
variable {s : StringIr}

/-- The bytes a read looks at: the length prefix and the active units, or everything up to the
first terminator. -/
def active (s : StringIr) (b : Bytes s.wire.size) : Set ℕ :=
  match s, b with
  | str w e n, b => (lenPlace w (byteData n)).region ∪
      (dataPlace w (byteData n)).image (Set.Iio ((str w e n).activeBytes
        ((lenPlace w (byteData n)).get b).toList ((dataPlace w (byteData n)).get b).toList))
  | cStr n, b => Set.Iio ((cStr n).activeBytes [] b.toList)
  | u16Str w e n, b => (lenPlace w (unitData n)).region ∪
      (dataPlace w (unitData n)).image (Set.Iio ((u16Str w e n).activeBytes
        ((lenPlace w (unitData n)).get b).toList ((dataPlace w (unitData n)).get b).toList))
  | u16CStr n, b => Set.Iio ((u16CStr n).activeBytes [] b.toList)

theorem decode_congr {b b' : Bytes s.wire.size} (h : AgreeOn Bytes.view (s.active b) b b') :
    s.decode b' = s.decode b := by
  cases s with
  | str w e n =>
    have hlength := Cell.get_congr (h.mono Set.subset_union_left)
    have hdata := Bytes.agreeOn_Iio.mp (Cell.agreeOn_get (h.mono Set.subset_union_right))
    show proveStr e _ _ = proveStr e _ _
    rw [hlength]
    exact (str w e n).proveData_congr (Bytes.length_eq _) (Bytes.length_eq _) hdata
  | cStr n =>
    exact (cStr n).proveData_congr b.length_eq b'.length_eq (Bytes.agreeOn_Iio.mp h)
  | u16Str w e n =>
    have hlength := Cell.get_congr (h.mono Set.subset_union_left)
    have hdata := Bytes.agreeOn_Iio.mp (Cell.agreeOn_get (h.mono Set.subset_union_right))
    show proveU16Str e _ _ = proveU16Str e _ _
    rw [hlength]
    exact (u16Str w e n).proveData_congr (Bytes.length_eq _) (Bytes.length_eq _) hdata
  | u16CStr n =>
    exact (u16CStr n).proveData_congr b.length_eq b'.length_eq (Bytes.agreeOn_Iio.mp h)

theorem read_congr (ctx : Context) {input input' : Input s.wire}
    (h : AgreeOn Input.view (some '' s.active input.bytes) input input') :
    s.read ctx input' = s.read ctx input := by
  have hbytes : AgreeOn Bytes.view (s.active input.bytes) input.bytes input'.bytes := by
    intro k hk
    exact Sum.inr.inj (h (some k) ⟨k, hk, rfl⟩)
  rw [read_eq, read_eq, decode_congr hbytes]

/-- The error that the handle of a field reports. -/
def checkField (s : StringIr) (ctx : Context) (value : s.Value) : Except SchemaError Unit :=
  match s.check value with
  | .ok () => .ok ()
  | .error e => .error (Context.leaf (.ofField ctx.schema ctx.field) e.kind)

omit [Target] in
theorem checkField_eq_ok {ctx : Context} {value : s.Value} :
    s.checkField ctx value = .ok () ↔ s.Fits value := by
  rw [← check_eq_ok]
  unfold checkField
  cases s.check value with
  | ok u => simp
  | error e => simp

theorem set_eq (ctx : Context) (input : Input s.wire) (value : s.Value) :
    StringMut.set s ctx input value =
      checkedWrite (s.checkField ctx value) (fun input => s.commit input value) input := by
  unfold StringMut.set checkField
  rw [preflight_eq]
  cases s.check value with
  | ok u => rfl
  | error e => rfl

theorem roundTrip_wire (s : StringIr) (ctx ctx' : Context) :
    RoundTrip Input.view (StringMut.set s ctx) (s.read ctx') s.Fits
      (fun value => some '' s.footprint value) (fun input => some '' s.active input.bytes) := by
  apply RoundTrip.of_checkedWrite (s.checkField ctx) (fun value input => s.commit input value)
  · intro input value
    exact set_eq ctx input value
  · intro value
    exact checkField_eq_ok
  · intro input value h
    obtain ⟨out, hout, hdecode⟩ := commit_spec input h
    refine ⟨out, hout, ?_, s.commit_changes hout⟩
    rw [read_eq, hdecode]
    rfl
  · intro input input' h
    exact read_congr ctx' h

/-- Every string form, over its slices and behind its handle. -/
theorem codecs_round_trip (s : StringIr) (ctx ctx' : Context) :
    RoundTrip Slices.view s.setSlices s.proveSlices s.Fits
      (fun value => leading (s.valueBytes value)) s.readSlices ∧
    RoundTrip Input.view (StringMut.set s ctx) (s.read ctx') s.Fits
      (fun value => some '' s.footprint value) (fun input => some '' s.active input.bytes) :=
  ⟨s.roundTrip_slices, s.roundTrip_wire ctx ctx'⟩

end StringIr

end ZeroSchema
