import ZeroSchema.Mutation.Logical

/-! The bytes that a value occupies. They are what the value leaves no choice about: all other
bytes of its storage are padding, unused capacity or an inactive payload. -/
namespace ZeroSchema
open Storage Control
variable [Target]

namespace StringIr

/-- The length prefix and the active units, or the units and their terminator. -/
def footprint (s : StringIr) (value : s.Value) : Set ℕ :=
  match s, value with
  | str w _ n, value => (lenPlace w (byteData n)).region ∪
      (dataPlace w (byteData n)).image (Set.Iio (String.utf8ByteSize value))
  | cStr _, value => Set.Iio (Terminated.withNul value).length
  | u16Str w _ n, value => (lenPlace w (unitData n)).region ∪
      (dataPlace w (unitData n)).image (Set.Iio (List.length value * 2))
  | u16CStr _, value => Set.Iio ((Terminated.withNul value).length * 2)

variable {s : StringIr}

theorem footprint_subset {value : s.Value} (h : s.Fits value) :
    s.footprint value ⊆ Set.Iio s.wire.size := by
  cases s with
  | str w e n =>
    have hsize : Set.Iio (String.utf8ByteSize value) ⊆ Set.Iio n := Set.Iio_subset_Iio h.1
    have hlen := (lenPlace w (byteData n)).image_subset_Iio (Set.Subset.refl (Set.Iio w.bytes))
    rw [Cell.image_Iio] at hlen
    exact Set.union_subset hlen ((dataPlace w (byteData n)).image_subset_Iio hsize)
  | cStr n => exact Set.Iio_subset_Iio h
  | u16Str w e n =>
    have hsize : Set.Iio (List.length value * 2) ⊆ Set.Iio (n * 2) :=
      Set.Iio_subset_Iio (Nat.mul_le_mul_right 2 h.1)
    have hlen := (lenPlace w (unitData n)).image_subset_Iio (Set.Subset.refl (Set.Iio w.bytes))
    rw [Cell.image_Iio] at hlen
    exact Set.union_subset hlen ((dataPlace w (unitData n)).image_subset_Iio hsize)
  | u16CStr n => exact Set.Iio_subset_Iio (Nat.mul_le_mul_right 2 h)

/-- A prefix that was read is stored in its own bytes. -/
private theorem get_len_eq {w : WireInt} {e : WireEndian} {data : Layout} {capacity length : ℕ}
    {b : Bytes (Layout.record (members w data)).size}
    (h : activeLength e ((lenPlace w data).get b).toList capacity = .ok length) :
    (lenPlace w data).get b = w.store e length := by
  have hraw := (activeLength_eq_ok.mp h).1
  have hstore := w.store_raw e ((lenPlace w data).get b)
  rw [hraw] at hstore
  exact hstore.symm

/-- The bytes that one string occupies are the same in every wire. -/
theorem agree_of_decode {b b' : Bytes s.wire.size} {value : s.Value} (h : s.decode b = .ok value)
    (h' : s.decode b' = .ok value) : AgreeOn Bytes.view (s.footprint value) b b' := by
  cases s with
  | str w e n =>
    obtain ⟨hact, htake⟩ := proveStr_eq_ok.mp h
    obtain ⟨hact', htake'⟩ := proveStr_eq_ok.mp h'
    have hle := (activeLength_eq_ok.mp hact).2.1
    rw [Bytes.length_eq] at hle
    have hlen : AgreeOn Bytes.view (lenPlace w (byteData n)).region b b' := by
      apply Cell.agreeOn_region
      rw [get_len_eq hact, get_len_eq hact']
    have hdata : AgreeOn Bytes.view
        ((dataPlace w (byteData n)).image (Set.Iio (String.utf8ByteSize value))) b b' := by
      apply Cell.agreeOn_image (Set.Iio_subset_Iio hle)
      rw [Bytes.agreeOn_Iio, htake, htake']
    rintro k (hk | hk)
    · exact hlen k hk
    · exact hdata k hk
  | cStr n =>
    apply Bytes.agreeOn_Iio.mpr
    rw [Terminated.take_of_untilNul h, Terminated.take_of_untilNul h']
  | u16Str w e n =>
    obtain ⟨hact, htake⟩ := proveU16Str_eq_ok.mp h
    obtain ⟨hact', htake'⟩ := proveU16Str_eq_ok.mp h'
    have hle := (activeLength_eq_ok.mp hact).2.1
    have hle' := (activeLength_eq_ok.mp hact').2.1
    have hcap : List.length value * 2 ≤ n * 2 := by
      have hunits := hle
      rw [length_nativeUnits, Bytes.length_eq] at hunits
      have hdata : (unitData n).size = n * 2 := rfl
      omega
    have hlen : AgreeOn Bytes.view (lenPlace w (unitData n)).region b b' := by
      apply Cell.agreeOn_region
      rw [get_len_eq hact, get_len_eq hact']
    have hdata : AgreeOn Bytes.view
        ((dataPlace w (unitData n)).image (Set.Iio (List.length value * 2))) b b' := by
      apply Cell.agreeOn_image (Set.Iio_subset_Iio hcap)
      rw [Bytes.agreeOn_Iio, take_of_units hle htake, take_of_units hle' htake']
    rintro k (hk | hk)
    · exact hlen k hk
    · exact hdata k hk
  | u16CStr n =>
    have hle := Terminated.length_le_of_untilNul h
    have hle' := Terminated.length_le_of_untilNul h'
    apply Bytes.agreeOn_Iio.mpr
    rw [take_of_units hle (Terminated.take_of_untilNul h),
      take_of_units hle' (Terminated.take_of_untilNul h')]

end StringIr

namespace Category

/-- A unit variant occupies nothing, an absent optional all of its storage. -/
def footprint : (c : Category) → c.Logical → Set ℕ
  | primitive p _, _ => Set.Iio p.width.bytes
  | bool, _ => Set.Iio 1
  | string s, v => s.footprint v
  | fixedBytes n, _ => Set.Iio n
  | scalarEnum ir, _ | tagSibling ir, _ => Set.Iio ir.repr.bytes
  | struct ir fields, v => ⋃ i, (fieldPlace ir fields i).image (footprint (fields i) (v i))
  | tagged ir payload, ⟨k, v⟩ => (payloadPlace ir payload k).image (footprint (payload k) v)
  | unit, _ => ∅
  | array element n, v => ⋃ j : Fin n, (elementPlace element j).image (footprint element (v j))
  | optional align inner, none => Set.Iio (optional align inner).wire.size
  | optional align inner, some v => (presentPlace align inner).image (footprint inner v)

theorem footprint_subset (c : Category) {v : c.Logical} (h : c.Fits v) :
    c.footprint v ⊆ Set.Iio c.wire.size := by
  induction c with
  | primitive | bool | fixedBytes | scalarEnum | tagSibling => exact subset_rfl
  | string s => exact StringIr.footprint_subset h
  | struct ir fields ih =>
    apply Set.iUnion_subset
    intro i
    exact (fieldPlace ir fields i).image_subset_Iio (ih i (h.2 i))
  | tagged ir payload ih =>
    obtain ⟨k, v⟩ := v
    exact (payloadPlace ir payload k).image_subset_Iio (ih k h)
  | unit => exact Set.empty_subset _
  | array element n ih =>
    apply Set.iUnion_subset
    intro j
    exact (elementPlace element j).image_subset_Iio (ih (h j))
  | optional align inner ih =>
    cases v with
    | none => exact subset_rfl
    | some v => exact (presentPlace align inner).image_subset_Iio (ih h)

/-- The bytes that one value occupies are the same wherever it is represented. -/
theorem Represents.agree (c : Category) (h : c.Accepted) {tag tag' : ℕ} (input input' : Input c.wire)
    {v : c.Logical} (hv : c.Represents tag input.bytes v) (hv' : c.Represents tag' input'.bytes v) :
    AgreeOn Bytes.view (c.footprint v) input.bytes input'.bytes := by
  induction c generalizing tag tag' with
  | primitive p e =>
    have heq := (p.storePreflighted_get e input.bytes).symm
    rw [show p.get e input.bytes = p.get e input'.bytes from hv.trans hv'.symm,
      p.storePreflighted_get] at heq
    exact AgreeOn.of_eq heq
  | bool =>
    exact AgreeOn.of_eq ((BoolWire.storePreflighted_of_decode hv).symm.trans
      (BoolWire.storePreflighted_of_decode hv'))
  | string s => exact StringIr.agree_of_decode hv hv'
  | fixedBytes n => exact AgreeOn.of_eq (hv.trans hv'.symm)
  | scalarEnum ir =>
    exact AgreeOn.of_eq ((EnumIr.commit_of_load hv).symm.trans (EnumIr.commit_of_load hv'))
  | tagSibling ir =>
    exact AgreeOn.of_eq ((EnumIr.commit_of_load hv).symm.trans (EnumIr.commit_of_load hv'))
  | struct ir fields ih =>
    have hfits := fits_of_represents _ h input hv
    intro k hk
    obtain ⟨i, hi⟩ := Set.mem_iUnion.mp hk
    obtain ⟨_, -, hrep⟩ := hv i
    obtain ⟨_, -, hrep'⟩ := hv' i
    have hfield := ih i (h.1 i).1 (input.child (fieldPlace ir fields i))
      (input'.child (fieldPlace ir fields i)) hrep hrep'
    exact Cell.agreeOn_image (footprint_subset _ (hfits.2 i)) hfield k hi
  | tagged ir payload ih =>
    obtain ⟨j, v⟩ := v
    have hfits : (payload j).Fits v := fits_of_represents _ h input hv
    have hpayload := ih j (h.1 j).1 (input.child (payloadPlace ir payload j))
      (input'.child (payloadPlace ir payload j)) hv.2 hv'.2
    exact Cell.agreeOn_image (footprint_subset (payload j) hfits) hpayload
  | unit => exact fun k hk => hk.elim
  | array element n ih =>
    have hfits := fits_of_represents _ h input hv
    intro k hk
    obtain ⟨j, hj⟩ := Set.mem_iUnion.mp hk
    have helement := ih h.1 (input.child (elementPlace element j))
      (input'.child (elementPlace element j)) (hv j) (hv' j)
    exact Cell.agreeOn_image (footprint_subset _ (hfits j)) helement k hj
  | optional align inner ih =>
    cases v with
    | none => exact AgreeOn.of_eq ((Bytes.isZero_iff.mp hv).trans (Bytes.isZero_iff.mp hv').symm)
    | some v =>
      have hfits : inner.Fits v := fits_of_represents _ h input hv
      have hinner := ih h.1 (input.child (presentPlace align inner))
        (input'.child (presentPlace align inner)) hv.2 hv'.2
      exact Cell.agreeOn_image (footprint_subset inner hfits) hinner

end Category

end ZeroSchema
