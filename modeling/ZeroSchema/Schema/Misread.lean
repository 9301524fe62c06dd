import ZeroSchema.Schema.Describe
import ZeroSchema.Schema.Inhabit

/-! Where the metadata states another size, some valid bytes are misread. A field described too
short loses its value, one described too long takes its padding or its neighbour for it. -/
namespace ZeroSchema
open Storage Control

namespace Category
variable [Target]

/-- Some value of the category is not what the decoder makes of it, wherever it is stored. -/
def Misread (c : Category) (link : Option ExternalTagDescriptor)
    (f : List UInt8 → List UInt8 → Option Datum) : Prop :=
  ∃ (tag : ℕ) (b : Bytes c.wire.size) (v : c.Logical), c.TagOf tag ∧ c.Represents tag b v ∧
    ∀ record bytes, c.TagLink link record tag → span bytes 0 c.wire.size = some b.toList →
      (c.isOptional = true → bytes = b.toList) → f record bytes ≠ some (c.datum v)

theorem tagEnum_of_not_sameStorage {c : Category} {r : c.Rebased} (h : ¬c.SameStorage r) :
    c.tagEnum = none := by
  cases c with
  | tagSibling ir => exact absurd trivial h
  | _ => rfl

variable {link : Option ExternalTagDescriptor}

theorem sameStorage_unit {c : Category} {r : c.Rebased} (h : c = unit) : c.SameStorage r := by
  subst h
  trivial

section Optional
variable {f : List UInt8 → List UInt8 → Option Datum} {record bytes : List UInt8}

/-- The value of an optional is not decoded from fewer bytes than it has. -/
theorem emitted_short {c : Category} (hacc : c.Accepted) (hc : c.isOptionalInner = true)
    {r : c.Rebased} (hf : c.Emitted r link f) (hshort : bytes.length < c.wire.size) :
    f record bytes = none := by
  cases c with
  | scalarEnum ir =>
    have hspan : span bytes 0 ir.repr.bytes = none := by
      rw [span_eq_none, Nat.zero_add]
      exact hshort
    rw [emitted_leaf rfl hf]
    show ((span bytes 0 ir.repr.bytes >>= _) : Option ℕ).map _ = none
    rw [hspan]
    rfl
  | struct ir fields =>
    obtain ⟨-, kinds, -, rfl⟩ := emitted_struct hf
    have hspan : span bytes 0 (struct ir fields).wire.size = none := by
      rw [span_eq_none, Nat.zero_add]
      exact hshort
    show (span bytes 0 (struct ir fields).wire.size).bind _ = none
    rw [hspan]
    rfl
  | array element n =>
    obtain ⟨g, -, rfl⟩ := emitted_array hf
    have hpos : 0 < n := Nat.pos_of_ne_zero hacc.2.2
    have hspan : span bytes ((n - 1) * element.wire.size) element.wire.size = none := by
      have hmul : (n - 1) * element.wire.size + element.wire.size = n * element.wire.size := by
        rw [← Nat.succ_mul, Nat.succ_eq_add_one, Nat.sub_add_cancel hpos]
      rw [span_eq_none, hmul]
      exact hshort
    have hlast : (span bytes ((⟨n - 1, by omega⟩ : Fin n) * element.wire.size)
        element.wire.size).bind g = none := by
      show (span bytes ((n - 1) * element.wire.size) element.wire.size).bind g = none
      rw [hspan]
      rfl
    show Option.map _ (collect _) = none
    rw [collect_eq_none hlast]
    rfl
  | _ => cases hc

/-- A present value is lost when its optional is described too short. -/
theorem misread_short {c : Category} (hacc : c.Accepted) (hfits : c.wire.size ≤ isizeMax)
    (hopt : c.isOptional = true) {r : c.Rebased} {kind : FieldKind}
    (hkind : c.fieldMetadataKind r link = some kind)
    (hshort : (alignedWire (c.alignOption none) (c.outerWire r)).size < c.wire.size) :
    ∃ (b : Bytes c.wire.size) (v : c.Logical), c.Represents 0 b v ∧ ∀ record bytes,
      bytes.length = (alignedWire (c.alignOption none) (c.outerWire r)).size →
      decodeOptional c.isOptional bytes (kind.decode record bytes) ≠ some (c.datum v) := by
  cases c with
  | optional align inner =>
    have hsize := size_le_of_place (presentPlace align inner) hfits
    have hnone : inner.payloadEnum = none := payloadEnum_eq_none (Or.inr (Or.inr hacc.2.1))
    obtain ⟨tag, x, v, htag, hx⟩ := exists_represents inner hacc.1 hsize
    obtain rfl := htag.2 hnone
    obtain ⟨b, hb, -⟩ := exists_present hacc hsize hx 0
    have hf := emitted_inner (isOptional_eq_false (Or.inr (Or.inr hacc.2.1))) hkind
    have hinner : (alignedWire align r.1).size < inner.wire.size := by
      cases align with
      | none => exact hshort
      | some a => exact Layout.size_lt_of_raise hshort
    refine ⟨b, some v, hb, fun record bytes hlen => ?_⟩
    have hdecode : kind.decode record bytes = none :=
      emitted_short hacc.1 hacc.2.1 hf (by rw [hlen]; exact hinner)
    rw [hdecode]
    show (if AllZero bytes then some Datum.absent else none) ≠ some (Datum.present _)
    split_ifs with hzero
    · intro h
      cases h
    · intro h
      cases h
  | _ => cases hopt

/-- An absent value is not seen when other bytes are taken for its storage. -/
theorem misread_long {c : Category} (hopt : c.isOptional = true) :
    ∃ (b : Bytes c.wire.size) (v : c.Logical), c.Represents 0 b v ∧
      ∀ (bytes : List UInt8) (value : Option Datum), (∃ y ∈ bytes, y ≠ 0) →
      decodeOptional c.isOptional bytes value ≠ some (c.datum v) := by
  cases c with
  | optional align inner =>
    refine ⟨Bytes.zero _, none, Bytes.isZero_zero, fun bytes value hbytes => ?_⟩
    obtain ⟨y, hy, hne⟩ := hbytes
    have hnot : ¬AllZero bytes := fun h => hne (h y hy)
    show (if AllZero bytes then some Datum.absent else value.map Datum.present) ≠ _
    rw [if_neg hnot]
    intro h
    obtain ⟨d, -, hd⟩ := Option.map_eq_some_iff.mp h
    cases hd
  | _ => cases hopt

end Optional

section Record
variable {ir : StructIr} {fields : Fin ir.arity → Category} {r : (struct ir fields).Rebased}

/-- A record is misread when one of its fields is, among any siblings and any padding. -/
theorem misread_record (hacc : (struct ir fields).Accepted)
    (hfits : (struct ir fields).wire.size ≤ isizeMax) {kinds : Fin ir.arity → FieldKind}
    {i : Fin ir.arity} (hi : (fields i).tagEnum = none) {tag : ℕ} {x : Bytes (fields i).wire.size}
    {v : (fields i).Logical} (htag : (fields i).TagOf tag) (hx : (fields i).Represents tag x v)
    (padding : Bytes (struct ir fields).wire.size)
    (hfield : ∀ b, (fieldPlace ir fields i).get b = x → tagAt ir fields b i = some tag →
      AgreeOn Bytes.view (⋃ i, (fieldPlace ir fields i).region)ᶜ padding b →
      (fieldDescriptor ir fields r i (kinds i)).decode b.toList ≠ some ((fields i).datum v)) :
    (struct ir fields).Misread link fun _ bytes =>
      (recordLayout ir fields r kinds).decode bytes := by
  choose tags y w htags hy using fun j => exists_represents (fields j) (hacc.1 j).1
    (size_le_of_place (fieldPlace ir fields j) hfits)
  have htags' (j : Fin ir.arity) : (fields j).TagOf (Function.update tags i tag j) := by
    by_cases hj : j = i
    · subst hj
      rwa [Function.update_self]
    · rw [Function.update_of_ne hj]
      exact htags j
  have hy' (j : Fin ir.arity) : (fields j).Represents (Function.update tags i tag j)
      (Function.update y i x j) (Function.update w i v j) := by
    by_cases hj : j = i
    · subst hj
      rwa [Function.update_self, Function.update_self, Function.update_self]
    · rw [Function.update_of_ne hj, Function.update_of_ne hj, Function.update_of_ne hj]
      exact hy j
  obtain ⟨b, u, hu, htagAt, hget, hframe⟩ := exists_record hacc.2.1 htags' hy' padding
  have htagi := htagAt i
  obtain ⟨hgeti, hui⟩ := hget i hi
  rw [Function.update_self] at htagi hgeti hui
  refine ⟨0, b, u, tagOf_zero rfl, hu 0, fun _ bytes _ hspan _ => ?_⟩
  show (recordLayout ir fields r kinds).decode bytes ≠ _
  rw [decode_recordLayout hspan]
  split_ifs with hseq
  · intro h
    obtain ⟨d, hd, hrecord⟩ := Option.map_eq_some_iff.mp h
    have hdi : d i = (fields i).datum v := by
      rw [Datum.record_inj hrecord]
      show (fields i).datum (u i) = _
      rw [hui]
    apply hfield b hgeti htagi hframe
    rw [collect_eq_some.mp hd i, hdi]
  · intro h
    cases h

omit [Target] in
theorem enums_of_isOptional {c : Category} (h : c.isOptional = true) :
    c.tagEnum = none ∧ c.payloadEnum = none := by
  cases c with
  | optional align inner => exact ⟨rfl, rfl⟩
  | _ => cases h

/-- The byte after a field that is followed by a gap is in no field. -/
theorem not_mem_region (kinds : Fin ir.arity → FieldKind)
    (hseq : Sequential fun i => fieldDescriptor ir fields r i (kinds i)) {i : Fin ir.arity}
    (hgap : (alignedWire (ir.fieldAlign i) (fields i).wire).size <
      (outerWireFieldType ir fields r i).size) (j : Fin ir.arity) :
    compilerFieldOffset ir fields i + (alignedWire (ir.fieldAlign i) (fields i).wire).size ∉
      (fieldPlace ir fields j).region := by
  intro hmem
  have hlt {i j : Fin ir.arity} (h : i < j) : compilerFieldOffset ir fields i +
      (alignedWire (ir.fieldAlign i) (fields i).wire).size ≤ compilerFieldOffset ir fields j := by
    have hle : Layout.fieldOffset (fun i => alignedWire (ir.fieldAlign i) (fields i).wire) i +
        (alignedWire (ir.fieldAlign i) (fields i).wire).size ≤
        Layout.fieldOffset (fun i => alignedWire (ir.fieldAlign i) (fields i).wire) j :=
      Layout.fieldOffset_lt h
    unfold compilerFieldOffset
    omega
  have hstorage : _ ∈ (storagePlace ir fields j).region := Cell.comp_region_subset _ _ hmem
  have hlo : compilerFieldOffset ir fields j ≤ compilerFieldOffset ir fields i +
      (alignedWire (ir.fieldAlign i) (fields i).wire).size := hstorage.1
  have hhi : compilerFieldOffset ir fields i +
      (alignedWire (ir.fieldAlign i) (fields i).wire).size < compilerFieldOffset ir fields j +
      (alignedWire (ir.fieldAlign j) (fields j).wire).size := hstorage.2
  rcases lt_trichotomy i j with h | rfl | h
  · have hnext : compilerFieldOffset ir fields i + (outerWireFieldType ir fields r i).size ≤
        compilerFieldOffset ir fields j := hseq i j h
    omega
  · omega
  · have hbefore := hlt h
    omega

/-- A field that is described with another size makes its record unreadable. -/
theorem misread_size (hacc : (struct ir fields).Accepted)
    (hfits : (struct ir fields).wire.size ≤ isizeMax) (habi : StructAbi ir fields r)
    {kinds : Fin ir.arity → FieldKind}
    (hkinds : ∀ i, (fields i).fieldMetadataKind (r i) (externalTag ir fields i) = some (kinds i))
    {i : Fin ir.arity} (hne : ¬(fields i).SameSize (r i)) :
    (struct ir fields).Misread link fun _ bytes =>
      (recordLayout ir fields r kinds).decode bytes := by
  have hopt : (fields i).isOptional = true := by
    by_contra h
    exact hne (sameSize_of_isOptional (Bool.eq_false_iff.mpr h))
  obtain ⟨htag, hpayload⟩ := enums_of_isOptional hopt
  have halign : ir.fieldAlign i = none := (hacc.1 i).2.2 hopt
  have hdescribed : (outerWireFieldType ir fields r i).size =
      (alignedWire ((fields i).alignOption none) ((fields i).outerWire (r i))).size := by
    unfold outerWireFieldType
    rw [halign]
  have hstorage : (alignedWire (ir.fieldAlign i) (fields i).wire).size = (fields i).wire.size := by
    rw [halign]
    rfl
  have hdecode (b : Bytes (struct ir fields).wire.size) :
      (fieldDescriptor ir fields r i (kinds i)).decode b.toList =
        (span b.toList (compilerFieldOffset ir fields i)
          (outerWireFieldType ir fields r i).size).bind fun s =>
            decodeOptional (fields i).isOptional s ((kinds i).decode b.toList s) := rfl
  rcases lt_or_gt_of_ne hne with hlt | hgt
  · obtain ⟨x, v, hx, hmisread⟩ := misread_short (hacc.1 i).1
      (size_le_of_place (fieldPlace ir fields i) hfits) hopt (hkinds i) hlt
    apply misread_record hacc hfits htag (tagOf_zero hpayload) hx (Bytes.zero _)
    intro b _ _ _
    rw [hdecode]
    cases hspan : span b.toList (compilerFieldOffset ir fields i)
        (outerWireFieldType ir fields r i).size with
    | none =>
      intro h
      cases h
    | some s => exact hmisread b.toList s ((length_of_span hspan).trans hdescribed)
  · by_cases hseq : Sequential fun i => fieldDescriptor ir fields r i (kinds i)
    · obtain ⟨x, v, hx, hmisread⟩ := misread_long hopt
      let ones : Bytes (struct ir fields).wire.size :=
        ⟨List.replicate _ 1, List.length_replicate⟩
      apply misread_record hacc hfits htag (tagOf_zero hpayload) hx ones
      intro b _ _ hframe
      rw [hdecode]
      cases hspan : span b.toList (compilerFieldOffset ir fields i)
          (outerWireFieldType ir fields r i).size with
      | none =>
        intro h
        cases h
      | some s =>
        apply hmisread
        refine ⟨1, ?_, by decide⟩
        have hend := habi i
        have hgap : (alignedWire (ir.fieldAlign i) (fields i).wire).size <
            (outerWireFieldType ir fields r i).size := by
          rw [hstorage, hdescribed]
          exact hgt
        have hoff : compilerFieldOffset ir fields i +
            (alignedWire (ir.fieldAlign i) (fields i).wire).size ∈
              (⋃ i, (fieldPlace ir fields i).region)ᶜ := by
          intro hmem
          obtain ⟨j, hj⟩ := Set.mem_iUnion.mp hmem
          exact not_mem_region kinds hseq hgap j hj
        have hview : b.toList[compilerFieldOffset ir fields i +
            (alignedWire (ir.fieldAlign i) (fields i).wire).size]? = some 1 := by
          have hones : ones.view (compilerFieldOffset ir fields i +
              (alignedWire (ir.fieldAlign i) (fields i).wire).size) = some 1 := by
            show (List.replicate _ (1 : UInt8))[_]? = some 1
            rw [List.getElem?_replicate, if_pos (by omega)]
          exact (hframe _ hoff).trans hones
        obtain ⟨-, rfl⟩ := span_eq_some.mp hspan
        apply List.mem_of_getElem?
        rw [List.getElem?_take_of_lt hgap, List.getElem?_drop]
        exact hview
    · obtain ⟨tag, b, v, htag, hb⟩ := exists_represents (struct ir fields) hacc hfits
      refine ⟨tag, b, v, htag, hb, fun _ bytes _ hspan _ => ?_⟩
      show (recordLayout ir fields r kinds).decode bytes ≠ _
      rw [decode_recordLayout hspan, if_neg hseq]
      intro h
      cases h

end Record

/-- A spelling that denotes a wire of another size, somewhere below a category, makes some value
of the category unreadable. -/
theorem emitted_misread (c : Category) (hacc : c.Accepted) (hfits : c.wire.size ≤ isizeMax)
    {r : c.Rebased} (hsize : c.SameSize r) (hdiff : ¬c.SameStorage r)
    {link : Option ExternalTagDescriptor} {f : List UInt8 → List UInt8 → Option Datum}
    (hf : c.Emitted r link f) : c.Misread link f := by
  induction c generalizing link f with
  | primitive | bool | string | fixedBytes | scalarEnum | tagSibling | unit =>
    exact absurd trivial hdiff
  | struct ir fields ih =>
    obtain ⟨habi, kinds, hkinds, rfl⟩ := emitted_struct hf
    by_cases hall : ∀ i, (fields i).SameSize (r i)
    · obtain ⟨i, hi⟩ := not_forall.mp hdiff
      obtain ⟨tag, x, v, htag, hx, hmisread⟩ := ih i (hacc.1 i).1
        (size_le_of_place (fieldPlace ir fields i) hfits) (hall i) hi (emitted_field (hkinds i))
      apply misread_record hacc hfits (tagEnum_of_not_sameStorage hi) htag hx (Bytes.zero _)
      intro b hget htagAt _
      rw [decode_fieldDescriptor (size_outerWireFieldType hacc (hall i))]
      apply hmisread
      · exact tagLink_field hacc.2.1 htagAt
      · rw [← hget]
        exact span_storage i b
      · intro hopt
        rw [← hget]
        exact storage_optional hacc hopt b
    · obtain ⟨i, hi⟩ := not_forall.mp hall
      exact misread_size hacc hfits habi hkinds hi
  | tagged ir payload ih =>
    obtain ⟨t, layouts, rfl, hlayouts, rfl⟩ := emitted_tagged hf
    obtain ⟨k, hk⟩ := not_forall.mp hdiff
    obtain ⟨hsel, hdiffk⟩ := Classical.not_imp.mp hk
    rcases variantLayout_cases (hacc.1 k).2 (hlayouts k) with ⟨hunit, -⟩ | ⟨hpath, hd⟩
    · exact absurd (sameStorage_unit hunit) hdiffk
    · have hnone : (payload k).payloadEnum = none := payloadEnum_eq_none (Or.inl (hacc.1 k).2)
      have hopt : (payload k).isOptional = false := isOptional_eq_false (Or.inl hpath)
      obtain ⟨tag, x, v, htag, hx, hmisread⟩ := ih k (hacc.1 k).1
        (size_le_of_place (payloadPlace ir payload k) hfits) (sameSize_of_isOptional hopt) hdiffk
        (emitted_layout hpath hd)
      obtain rfl := htag.2 hnone
      have hget := (payloadPlace ir payload k).get_put (Bytes.zero _) x
      refine ⟨ir.tag k, (payloadPlace ir payload k).put (Bytes.zero _) x, ⟨k, v⟩, ⟨?_, ?_⟩,
        ⟨hsel, ?_⟩, ?_⟩
      · intro e he
        obtain rfl := Option.some.inj he
        exact (ir.tag k).isLt
      · intro h
        cases h
      · rw [hget]
        exact hx
      · intro record bytes hlink hspan _
        obtain ⟨t', u, ht', hdecode, hu⟩ := hlink ir.tagType rfl
        obtain rfl := Option.some.inj ht'
        have hmember := span_cell (payloadPlace ir payload k).toCell
          (span_whole ((payloadPlace ir payload k).put (Bytes.zero _) x))
        rw [hget] at hmember
        change span _ 0 (payload k).wire.size = _ at hmember
        show ((t.decode record).bind fun raw => _) ≠ _
        rw [hdecode, Option.bind_some, decode_payloadLayout hspan, hu, hsel, Option.bind_some]
        intro h
        obtain ⟨d, hd', hvariant⟩ := Option.map_eq_some_iff.mp h
        have hchild : (variantDescriptor ir payload k (layouts k)).decode
            ((payloadPlace ir payload k).put (Bytes.zero _) x).toList =
              (layouts k).decode x.toList := by
          show (span _ 0 (payload k).wire.size).bind _ = _
          rw [hmember, Option.bind_some]
        rw [hchild] at hd'
        have hdv : d = (payload k).datum v := by
          injection hvariant
        refine hmisread [] x.toList (tagLink_of_payloadEnum hnone) (span_whole x) ?_ (hdv ▸ hd')
        intro _
        rfl
  | array element n ih =>
    obtain ⟨g, hg, rfl⟩ := emitted_array hf
    have hpos : 0 < n := Nat.pos_of_ne_zero hacc.2.2
    have hnone : element.payloadEnum = none := payloadEnum_eq_none (Or.inr (Or.inl hacc.2.1))
    obtain ⟨tag, x, v, htag, hx, hmisread⟩ := ih hacc.1
      (size_le_of_place (elementPlace element (⟨0, hpos⟩ : Fin n)) hfits)
      (sameSize_of_isOptional (isOptional_eq_false (Or.inr (Or.inl hacc.2.1)))) hdiff hg
    obtain rfl := htag.2 hnone
    obtain ⟨b, hb, hget⟩ := exists_array (n := n) hx 0
    refine ⟨0, b, fun _ => v, tagOf_zero rfl, hb, fun record bytes _ hspan _ => ?_⟩
    intro h
    obtain ⟨d, hd, harray⟩ := Option.map_eq_some_iff.mp h
    have hfirst := collect_eq_some.mp hd ⟨0, hpos⟩
    have hcell := span_cell (elementPlace element (⟨0, hpos⟩ : Fin n)).toCell hspan
    change span bytes ((⟨0, hpos⟩ : Fin n) * element.wire.size) element.wire.size = _ at hcell
    rw [hcell, Option.bind_some, hget] at hfirst
    have hdv : d ⟨0, hpos⟩ = element.datum v := congrFun (Datum.array_inj harray) ⟨0, hpos⟩
    refine hmisread [] x.toList (tagLink_of_payloadEnum hnone) (span_whole x) ?_ (hdv ▸ hfirst)
    intro _
    rfl
  | optional align inner ih =>
    have hnone : inner.payloadEnum = none := payloadEnum_eq_none (Or.inr (Or.inr hacc.2.1))
    have hinner := isOptional_eq_false (Or.inr (Or.inr hacc.2.1))
    have hfits' := size_le_of_place (presentPlace align inner) hfits
    obtain ⟨g, hg, rfl⟩ := emitted_optional hinner hf
    have hdiff' : ¬inner.SameStorage r.2 := fun h => hdiff ⟨hsize, h⟩
    obtain ⟨tag, x, v, htag, hx, hmisread⟩ := ih hacc.1 hfits' (sameSize_of_isOptional hinner)
      hdiff' hg
    obtain rfl := htag.2 hnone
    obtain ⟨b, hb, hget⟩ := exists_present hacc hfits' hx 0
    refine ⟨0, b, some v, tagOf_zero rfl, hb, fun record bytes _ _ hexact => ?_⟩
    obtain rfl := hexact rfl
    have hpresent := span_cell (presentPlace align inner).toCell (span_whole b)
    have hoffset : (presentPlace align inner).offset = 0 := valuePlace_offset align inner.wire
    rw [hoffset, hget] at hpresent
    show (if AllZero b.toList then some Datum.absent
      else (g record b.toList).map Datum.present) ≠ _
    have hnot : ¬AllZero b.toList := hb.1
    rw [if_neg hnot]
    intro h
    obtain ⟨d, hd, hd'⟩ := Option.map_eq_some_iff.mp h
    have hdv : d = inner.datum v := by
      injection hd'
    refine hmisread record b.toList (tagLink_of_payloadEnum hnone) hpresent ?_ (hdv ▸ hd)
    intro hopt
    rw [hinner] at hopt
    cases hopt

end Category

end ZeroSchema
