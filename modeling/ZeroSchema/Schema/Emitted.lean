import ZeroSchema.Schema.Reference

/-! What a layout descriptor makes of each category: the decoders that are emitted for it as a
declaration, as an array element and as a field, and the sizes they are emitted with. -/
namespace ZeroSchema
open Storage Control

@[simp] theorem valuePlace_offset (align : Option Alignment) (L : Layout) :
    (valuePlace align L).offset = 0 := by
  cases align <;> rfl

section
variable [Target]

@[simp] theorem LayoutDescriptor.decode_fieldKind (d : LayoutDescriptor) (record bytes : List UInt8) :
    d.fieldKind.decode record bytes = d.decode bytes := by
  unfold fieldKind
  split <;> rfl

@[simp] theorem LayoutDescriptor.decode_elementKind (d : LayoutDescriptor) (bytes : List UInt8) :
    d.elementKind.decode bytes = d.decode bytes := by
  unfold elementKind
  split <;> rfl

/-- A unit variant takes one byte and says nothing. -/
theorem decode_unitLayout {name : String} {bytes x : List UInt8} (h : span bytes 0 1 = some x) :
    (unitLayout name).decode bytes = some (Category.unit.datum ()) := by
  have hsequential : Sequential noFields := fun i => i.elim0
  have hcollect (bytes : List UInt8) :
      (collect fun i => (noFields i).decode bytes) = some fun i => i.elim0 :=
    collect_eq_some.mpr fun i => i.elim0
  change (span bytes 0 1 >>= _) = _
  rw [h]
  change (if Sequential noFields then
    (collect fun i => (noFields i).decode x).map (Datum.record fun i => (noFields i).name)
    else none) = _
  rw [if_pos hsequential, hcollect]
  have hnames : (fun i => (noFields i).name) = fun i : Fin 0 => (i.elim0 : String) := by
    funext i
    exact i.elim0
  rw [hnames]
  rfl

end

namespace Category
variable [Target]

/-- The decoders that the metadata holds for a category. A field's decoder is given the whole
storage of the field, the others are given a value and what follows it. -/
def Emitted (c : Category) (r : c.Rebased) (link : Option ExternalTagDescriptor)
    (f : List UInt8 → List UInt8 → Option Datum) : Prop :=
  (∃ d, c.layout r = some d ∧ c.isPath = true ∧ f = fun _ bytes => d.decode bytes) ∨
  (∃ kind, c.arrayElementKind r = some kind ∧ f = fun _ bytes => kind.decode bytes) ∨
  ∃ kind, c.fieldMetadataKind r link = some kind ∧
    f = fun record bytes => decodeOptional c.isOptional bytes (kind.decode record bytes)

theorem emitted_layout {c : Category} {r : c.Rebased} {d : LayoutDescriptor}
    (hpath : c.isPath = true) (hd : c.layout r = some d) :
    c.Emitted r none fun _ bytes => d.decode bytes := Or.inl ⟨d, hd, hpath, rfl⟩

/-- The decoder of a category that holds no declarations of records or payloads. -/
def leafDecode : Category → Option (List UInt8 → Option Datum)
  | primitive p e => some (decodePrimitive p e)
  | bool => some decodeBool
  | string s => some s.descriptor.decode
  | fixedBytes n => some fun bytes => (span bytes 0 n).map .bytes
  | scalarEnum ir | tagSibling ir => some fun bytes => (ir.layout.rawValue bytes).map .enumerator
  | struct _ _ | tagged _ _ | unit | array _ _ | optional _ _ => none

section
variable {link : Option ExternalTagDescriptor} {f : List UInt8 → List UInt8 → Option Datum}

/-- A leaf is decoded in the same way wherever it stands. -/
theorem emitted_leaf {c : Category} {r : c.Rebased} {g : List UInt8 → Option Datum}
    (hleaf : c.leafDecode = some g) (h : c.Emitted r link f) : f = fun _ bytes => g bytes := by
  rcases h with ⟨d, hd, hpath, rfl⟩ | ⟨kind, hkind, rfl⟩ | ⟨kind, hkind, rfl⟩
  · cases c with
    | scalarEnum ir =>
      obtain rfl := Option.some.inj hleaf
      obtain rfl := Option.some.inj hd
      rfl
    | struct => cases hleaf
    | _ => cases hpath
  · cases c with
    | primitive | bool | string | scalarEnum | tagSibling =>
      obtain rfl := Option.some.inj hleaf
      obtain rfl := Option.some.inj hkind
      rfl
    | struct | array => cases hleaf
    | _ => cases hkind
  · cases c with
    | primitive | bool | string | fixedBytes | scalarEnum | tagSibling =>
      obtain rfl := Option.some.inj hleaf
      obtain rfl := Option.some.inj hkind
      rfl
    | struct | tagged | unit | array | optional => cases hleaf

section Record
variable {ir : StructIr} {fields : Fin ir.arity → Category} {r : (struct ir fields).Rebased}

theorem layout_struct {d : LayoutDescriptor} (hd : (struct ir fields).layout r = some d) :
    StructAbi ir fields r ∧ ∃ kinds : Fin ir.arity → FieldKind,
      (∀ i, (fields i).fieldMetadataKind (r i) (externalTag ir fields i) = some (kinds i)) ∧
      d = recordLayout ir fields r kinds := by
  rw [layout, structLayout] at hd
  split_ifs at hd with habi
  obtain ⟨kinds, hkinds, rfl⟩ := Option.map_eq_some_iff.mp hd
  exact ⟨habi, kinds, collect_eq_some.mp hkinds, rfl⟩

/-- The decoder of a record, whose fields are decoded as they were emitted. -/
theorem emitted_struct (h : (struct ir fields).Emitted r link f) :
    StructAbi ir fields r ∧ ∃ kinds : Fin ir.arity → FieldKind,
      (∀ i, (fields i).fieldMetadataKind (r i) (externalTag ir fields i) = some (kinds i)) ∧
      f = fun _ bytes => (recordLayout ir fields r kinds).decode bytes := by
  rcases h with ⟨d, hd, -, rfl⟩ | ⟨kind, hkind, rfl⟩ | ⟨kind, hkind, rfl⟩
  · obtain ⟨habi, kinds, hkinds, rfl⟩ := layout_struct hd
    exact ⟨habi, kinds, hkinds, rfl⟩
  · obtain ⟨d, hd, rfl⟩ := Option.map_eq_some_iff.mp hkind
    obtain ⟨habi, kinds, hkinds, rfl⟩ := layout_struct hd
    refine ⟨habi, kinds, hkinds, ?_⟩
    funext _ bytes
    exact LayoutDescriptor.decode_elementKind _ bytes
  · obtain ⟨d, hd, rfl⟩ := Option.map_eq_some_iff.mp hkind
    obtain ⟨habi, kinds, hkinds, rfl⟩ := layout_struct hd
    refine ⟨habi, kinds, hkinds, ?_⟩
    funext record bytes
    exact LayoutDescriptor.decode_fieldKind _ record bytes

/-- What the metadata of a record says of a field is the decoder of the field. -/
theorem emitted_field {i : Fin ir.arity} {kind : FieldKind}
    (h : (fields i).fieldMetadataKind (r i) (externalTag ir fields i) = some kind) :
    (fields i).Emitted (r i) (externalTag ir fields i)
      fun record bytes => decodeOptional (fields i).isOptional bytes (kind.decode record bytes) :=
  Or.inr (Or.inr ⟨kind, h, rfl⟩)

end Record

/-- The decoder of a payload: the tag is read in the record around it. -/
theorem emitted_tagged {ir : TaggedIr} {payload : Fin ir.arity → Category}
    {r : (tagged ir payload).Rebased} (h : (tagged ir payload).Emitted r link f) :
    ∃ tag layouts, link = some tag ∧
      (∀ k, variantLayout (ir.logicalName ++ "." ++ ir.variantName k) (payload k)
        ((payload k).layout (r k)) = some (layouts k)) ∧
      f = fun record bytes => (tag.decode record).bind fun raw =>
        (payloadLayout ir payload layouts).decodePayload raw bytes := by
  rcases h with ⟨d, -, hpath, -⟩ | ⟨kind, hkind, -⟩ | ⟨kind, hkind, rfl⟩
  · cases hpath
  · cases hkind
  · cases link with
    | none => cases hkind
    | some tag =>
      obtain ⟨d, hd, rfl⟩ := Option.map_eq_some_iff.mp hkind
      obtain ⟨layouts, hlayouts, rfl⟩ := Option.map_eq_some_iff.mp hd
      exact ⟨tag, layouts, rfl, collect_eq_some.mp hlayouts, rfl⟩

/-- A variant is a unit, or a declaration with a layout. -/
theorem variantLayout_cases {c : Category} {r : c.Rebased} {name : String} {d : LayoutDescriptor}
    (hc : c.isPayload = true) (h : variantLayout name c (c.layout r) = some d) :
    (c = unit ∧ d = unitLayout name) ∨ (c.isPath = true ∧ c.layout r = some d) := by
  cases c with
  | unit =>
    obtain rfl := Option.some.inj h
    exact Or.inl ⟨rfl, rfl⟩
  | scalarEnum | struct => exact Or.inr ⟨rfl, h⟩
  | _ => cases hc

/-- The decoder of an array: one of its element for every stride. -/
theorem emitted_array {element : Category} {n : ℕ} {r : (array element n).Rebased}
    (h : (array element n).Emitted r link f) :
    ∃ g : List UInt8 → Option Datum, element.Emitted r none (fun _ bytes => g bytes) ∧
      f = fun _ bytes => (collect fun j : Fin n =>
        (span bytes (j * element.wire.size) element.wire.size).bind g).map .array := by
  rcases h with ⟨d, -, hpath, -⟩ | ⟨kind, hkind, rfl⟩ | ⟨kind, hkind, rfl⟩
  · cases hpath
  · obtain ⟨inner, hinner, rfl⟩ := Option.map_eq_some_iff.mp hkind
    exact ⟨inner.decode, Or.inr (Or.inl ⟨inner, hinner, rfl⟩), rfl⟩
  · obtain ⟨inner, hinner, rfl⟩ := Option.map_eq_some_iff.mp hkind
    exact ⟨inner.decode, Or.inr (Or.inl ⟨inner, hinner, rfl⟩), rfl⟩

theorem emitted_inner {inner : Category} {r : inner.Rebased} (hinner : inner.isOptional = false)
    {kind : FieldKind} (h : inner.fieldMetadataKind r link = some kind) :
    inner.Emitted r link kind.decode := by
  refine Or.inr (Or.inr ⟨kind, h, ?_⟩)
  rw [hinner]
  rfl

/-- The decoder of an optional: that of its value behind the zero test. -/
theorem emitted_optional {align : Option Alignment} {inner : Category}
    {r : (optional align inner).Rebased} (hinner : inner.isOptional = false)
    (h : (optional align inner).Emitted r link f) :
    ∃ g, inner.Emitted r.2 link g ∧
      f = fun record bytes => decodeOptional true bytes (g record bytes) := by
  rcases h with ⟨d, -, hpath, -⟩ | ⟨kind, hkind, -⟩ | ⟨kind, hkind, rfl⟩
  · cases hpath
  · cases hkind
  · exact ⟨kind.decode, emitted_inner hinner hkind, rfl⟩

theorem emitted_unit {r : unit.Rebased} : ¬unit.Emitted r link f := by
  rintro (⟨d, hd, -⟩ | ⟨kind, hkind, -⟩ | ⟨kind, hkind, -⟩)
  · cases hd
  · cases hkind
  · cases hkind

end

end Category

end ZeroSchema
