import ZeroSchema.Schema.Descriptor
import ZeroSchema.Schema.Meaning
import ZeroSchema.Library.Span

/-! A reference decoder. All it knows of a schema is the layout descriptor; what it yields is
an untyped value, and a typed logical value has one as its image. -/
namespace ZeroSchema
open Storage Control

/-- A logical value as a reader of metadata sees it. A number is its bit pattern, a variant is
the position it has in its declaration. -/
inductive Datum
  | number (bits : ℕ)
  | bool (value : Bool)
  | enumerator (raw : ℕ)
  | text (value : String)
  | bytes (value : List UInt8)
  | units (value : List UInt16)
  | record {n : ℕ} (names : Fin n → String) (values : Fin n → Datum)
  | variant (position : ℕ) (name : String) (payload : Datum)
  | array {n : ℕ} (values : Fin n → Datum)
  | absent
  | present (value : Datum)

namespace Datum

theorem record_inj {n : ℕ} {names : Fin n → String} {x y : Fin n → Datum}
    (h : record names x = record names y) : x = y := by
  injection h

theorem array_inj {n : ℕ} {x y : Fin n → Datum} (h : array x = array y) : x = y := by
  injection h

def isAbsent : Datum → Bool
  | absent => true
  | _ => false

end Datum

def StringIr.datum : (s : StringIr) → s.Value → Datum
  | str _ _ _, v => .text v
  | cStr _, v => .bytes v.units
  | u16Str _ _ _, v => .units v
  | u16CStr _, v => .units v.units

namespace Category

/-- The image of a logical value. -/
def datum : (c : Category) → c.Logical → Datum
  | primitive _ _, v => .number v.toNat
  | bool, v => .bool v
  | string s, v => s.datum v
  | fixedBytes _, v => .bytes v.toList
  | scalarEnum ir, v | tagSibling ir, v => .enumerator (ir.toRaw v)
  | struct ir fields, v => .record ir.fieldName fun i => datum (fields i) (v i)
  | tagged ir payload, ⟨k, v⟩ => .variant k (ir.variantName k) (datum (payload k) v)
  | unit, _ => .record (fun i : Fin 0 => i.elim0) fun i => i.elim0
  | array element _, v => .array fun j => datum element (v j)
  | optional _ _, none => .absent
  | optional _ inner, some v => .present (datum inner v)

/-- Different logical values have different images. -/
theorem datum_injective (c : Category) : Function.Injective c.datum := by
  intro v w h
  induction c with
  | primitive p e =>
    injection h with hbits
    exact BitVec.eq_of_toNat_eq hbits
  | bool =>
    injection h
  | string s =>
    cases s with
    | str | u16Str =>
      injection h
    | cStr | u16CStr =>
      injection h with hunits
      exact Terminated.ext hunits
  | fixedBytes n =>
    injection h with hbytes
    exact Bytes.ext hbytes
  | scalarEnum ir =>
    injection h with hraw
    exact EnumIr.toRaw_injective hraw
  | tagSibling ir =>
    injection h with hraw
    exact EnumIr.toRaw_injective hraw
  | struct ir fields ih =>
    funext i
    exact ih i (congrFun (Datum.record_inj h) i)
  | tagged ir payload ih =>
    obtain ⟨k, v⟩ := v
    obtain ⟨l, w⟩ := w
    injection h with hposition _ hpayload
    obtain rfl : k = l := Fin.ext hposition
    rw [ih k hpayload]
  | unit => rfl
  | array element n ih =>
    funext j
    exact ih (congrFun (Datum.array_inj h) j)
  | optional align inner ih =>
    cases v with
    | none =>
      cases w with
      | none => rfl
      | some w => cases h
    | some v =>
      cases w with
      | none => cases h
      | some w =>
        injection h with hvalue
        rw [ih hvalue]

end Category

variable [Target]

/-- The raw number that a scalar enum stores, when it is one of the declared values. -/
def LayoutDescriptor.rawValue : LayoutDescriptor → List UInt8 → Option ℕ
  | mk _ (.scalarEnum repr endian) _ _ _ _ _ enumValues _, bytes => do
    let bytes ← span bytes 0 repr.bytes
    let raw := endian.order.decode bytes
    if raw ∈ enumValues then some raw else none
  | _, _ => none

def LengthDescriptor.decode (length : LengthDescriptor) (bytes : List UInt8) : Option ℕ := do
  let bytes ← span bytes length.offset length.repr.bytes
  some (length.endian.order.decode bytes)

/-- Units are stored in the byte order of the machine. -/
def StringDescriptor.decode (d : StringDescriptor) (bytes : List UInt8) : Option Datum :=
  match d.encoding, d.length with
  | .utf8, some length => do
    let length ← length.decode bytes
    let data ← span bytes d.dataOffset d.capacity
    if length ≤ d.capacity then
      (String.fromUTF8? ⟨(data.take length).toArray⟩).map .text
    else none
  | .u16, some length => do
    let length ← length.decode bytes
    let data ← span bytes d.dataOffset (d.capacity * 2)
    if length ≤ d.capacity then some (.units ((nativeUnits data).take length)) else none
  | .cBytes, none => do
    let data ← span bytes d.dataOffset d.capacity
    if 0 ∈ data then some (.bytes (data.takeWhile (· ≠ 0))) else none
  | .u16C, none => do
    let data ← span bytes d.dataOffset (d.capacity * 2)
    if 0 ∈ nativeUnits data then some (.units ((nativeUnits data).takeWhile (· ≠ 0))) else none
  | _, _ => none

def decodePrimitive (p : Primitive) (e : WireEndian) (bytes : List UInt8) : Option Datum := do
  let bytes ← span bytes 0 p.width.bytes
  some (.number (e.order.decode bytes))

def decodeBool (bytes : List UInt8) : Option Datum := do
  let bytes ← span bytes 0 1
  let raw ← bytes.head?
  (BoolWire.decode raw).map .bool

/-- The tag of a payload, read in the record that holds both. -/
def ExternalTagDescriptor.decode : ExternalTagDescriptor → List UInt8 → Option ℕ
  | mk _ offset layout, record => do
    let bytes ← span record offset layout.size
    layout.rawValue bytes

/-- The fields follow one another; a descriptor whose fields overlap is that of no record. -/
def Sequential {n : ℕ} (fields : Fin n → FieldDescriptor) : Prop :=
  ∀ i j, i < j → (fields i).offset + (fields i).size ≤ (fields j).offset

instance {n : ℕ} (fields : Fin n → FieldDescriptor) : Decidable (Sequential fields) :=
  inferInstanceAs (Decidable (∀ i j, i < j →
    (fields i).offset + (fields i).size ≤ (fields j).offset))

/-- All bytes of an optional's storage decide whether its value is present. -/
def decodeOptional (optional : Bool) (bytes : List UInt8) (value : Option Datum) : Option Datum :=
  if optional then
    if AllZero bytes then some .absent else value.map .present
  else value

mutual

/-- A value of a layout at the start of some bytes; `record` holds a field's siblings. -/
def LayoutDescriptor.decode : LayoutDescriptor → List UInt8 → Option Datum
  | .mk _ .struct size _ _ _ fields _ _, bytes => do
    let bytes ← span bytes 0 size
    if Sequential fields then
      (collect fun i => (fields i).decode bytes).map (.record fun i => (fields i).name)
    else none
  | .mk name (.scalarEnum repr endian) size align stride padding fields enumValues variants,
    bytes =>
    (LayoutDescriptor.rawValue (.mk name (.scalarEnum repr endian) size align stride padding fields
      enumValues variants) bytes).map .enumerator
  | .mk _ .taggedUnion .., _ => none

/-- The first variant with the tag. -/
def LayoutDescriptor.decodePayload : LayoutDescriptor → ℕ → List UInt8 → Option Datum
  | .mk _ .taggedUnion size _ _ _ _ _ variants, tag, bytes => do
    let bytes ← span bytes 0 size
    let k ← (List.finRange _).find? fun k => (variants k).rawTag = tag
    ((variants k).decode bytes).map (.variant k (variants k).name)
  | _, _, _ => none

def FieldDescriptor.decode : FieldDescriptor → List UInt8 → Option Datum
  | .mk _ _ offset size _ kind optional, record => do
    let bytes ← span record offset size
    decodeOptional optional bytes (kind.decode record bytes)

def FieldKind.decode : FieldKind → List UInt8 → List UInt8 → Option Datum
  | .primitive p e, _, bytes => decodePrimitive p e bytes
  | .bool, _, bytes => decodeBool bytes
  | .scalarEnum layout, _, bytes | .schema layout, _, bytes => layout.decode bytes
  | .string d, _, bytes => d.decode bytes
  | .fixedBytes length, _, bytes => (span bytes 0 length).map .bytes
  | .array d, _, bytes => d.decode bytes
  | .externalTaggedUnion payload tag, record, bytes => do
    let tag ← tag.decode record
    payload.decodePayload tag bytes

def ArrayElementKind.decode : ArrayElementKind → List UInt8 → Option Datum
  | .primitive p e, bytes => decodePrimitive p e bytes
  | .bool, bytes => decodeBool bytes
  | .scalarEnum layout, bytes | .schema layout, bytes => layout.decode bytes
  | .string d, bytes => d.decode bytes
  | .array d, bytes => d.decode bytes

def ArrayDescriptor.decode : ArrayDescriptor → List UInt8 → Option Datum
  | .mk element length stride, bytes =>
    (collect fun j : Fin length => do
      let bytes ← span bytes (j * stride) stride
      element.decode bytes).map .array

def VariantDescriptor.decode : VariantDescriptor → List UInt8 → Option Datum
  | .mk _ _ payload payloadSize _, bytes => do
    let bytes ← span bytes 0 payloadSize
    payload.decode bytes

end

/-- Decodes a complete span: its length and its address have to fit the layout. -/
def LayoutDescriptor.read (layout : LayoutDescriptor) {n : ℕ} (s : Slice n) : Option Datum :=
  if n = layout.size ∧ s.address % layout.align = 0 then layout.decode s.bytes.toList else none

end ZeroSchema
