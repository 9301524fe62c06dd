import ZeroSchema.Schema.Wire
import ZeroSchema.Library.Realize

/-! The layout metadata that the macro emits beside the codec. It computes every offset and
size again, in the scope of the declaration instead of that of the generated module. -/
namespace ZeroSchema
open Storage Control Category

/-- A half-open byte range relative to its owning wire layout. -/
structure ByteRange where
  start : ℕ
  stop : ℕ
deriving DecidableEq

inductive TypeKind
  | struct
  | scalarEnum (repr : WireInt) (endian : WireEndian)
  | taggedUnion
deriving DecidableEq

inductive StringEncoding
  | utf8 | cBytes | u16 | u16C
deriving DecidableEq

structure LengthDescriptor where
  repr : WireInt
  endian : WireEndian
  offset : ℕ
deriving DecidableEq

/-- String storage; offsets are relative to the start of the string wire. -/
structure StringDescriptor where
  encoding : StringEncoding
  capacity : ℕ
  length : Option LengthDescriptor
  dataOffset : ℕ
deriving DecidableEq

mutual

/-- The wire of a schema type. -/
inductive LayoutDescriptor
  | mk (name : String) (kind : TypeKind) (size align stride : ℕ) (padding : List ByteRange)
      {arity : ℕ} (fields : Fin arity → FieldDescriptor) (enumValues : List ℕ)
      {variantCount : ℕ} (variants : Fin variantCount → VariantDescriptor)

/-- A declared field: its storage, and the kind of the value at the start of it. -/
inductive FieldDescriptor
  | mk (name : String) (declarationIndex offset size align : ℕ) (kind : FieldKind)
      (optional : Bool)

inductive FieldKind
  | primitive (primitive : Primitive) (endian : WireEndian)
  | bool
  | scalarEnum (layout : LayoutDescriptor)
  | string (descriptor : StringDescriptor)
  | fixedBytes (length : ℕ)
  | array (descriptor : ArrayDescriptor)
  | schema (layout : LayoutDescriptor)
  | externalTaggedUnion (payload : LayoutDescriptor) (tag : ExternalTagDescriptor)

inductive ArrayElementKind
  | primitive (primitive : Primitive) (endian : WireEndian)
  | bool
  | scalarEnum (layout : LayoutDescriptor)
  | schema (layout : LayoutDescriptor)
  | string (descriptor : StringDescriptor)
  | array (descriptor : ArrayDescriptor)

inductive ArrayDescriptor
  | mk (element : ArrayElementKind) (length stride : ℕ)

/-- The sibling field that tags a payload. -/
inductive ExternalTagDescriptor
  | mk (fieldName : String) (offset : ℕ) (layout : LayoutDescriptor)

inductive VariantDescriptor
  | mk (name : String) (rawTag : ℕ) (payload : LayoutDescriptor) (payloadSize payloadAlign : ℕ)

end

namespace LayoutDescriptor

def kind : LayoutDescriptor → TypeKind
  | mk _ kind .. => kind

def size : LayoutDescriptor → ℕ
  | mk _ _ size .. => size

def align : LayoutDescriptor → ℕ
  | mk _ _ _ align .. => align

/-- A path field is a scalar enum or a record, by the kind of the layout it refers to. -/
def fieldKind (layout : LayoutDescriptor) : FieldKind :=
  match layout.kind with
  | .scalarEnum _ _ => .scalarEnum layout
  | _ => .schema layout

def elementKind (layout : LayoutDescriptor) : ArrayElementKind :=
  match layout.kind with
  | .scalarEnum _ _ => .scalarEnum layout
  | _ => .schema layout

end LayoutDescriptor

namespace FieldDescriptor

def name : FieldDescriptor → String
  | mk name .. => name

def offset : FieldDescriptor → ℕ
  | mk _ _ offset .. => offset

def size : FieldDescriptor → ℕ
  | mk _ _ _ size .. => size

end FieldDescriptor

def VariantDescriptor.name : VariantDescriptor → String
  | mk name .. => name

def VariantDescriptor.rawTag : VariantDescriptor → ℕ
  | mk _ rawTag .. => rawTag

namespace Category

/-- The layout that the generated module's spelling of each optional's inner type denotes at
the declaration itself. `self::` and `super::` are rebased in that spelling, so it need not be
the inner type. -/
@[reducible] def Rebased : Category → Type
  | struct ir fields => (i : Fin ir.arity) → Rebased (fields i)
  | tagged ir payload => (k : Fin ir.arity) → Rebased (payload k)
  | array element _ => Rebased element
  | optional _ inner => Layout × Rebased inner
  | primitive _ _ | bool | string _ | fixedBytes _ | scalarEnum _ | tagSibling _ | unit => Unit

end Category

variable [Target]

/-- A C string has no prefix and its data at the start. -/
def StringIr.descriptor : StringIr → StringDescriptor
  | str w e n => ⟨.utf8, n, some ⟨w, e, 0⟩, (dataPlace w (byteData n)).offset⟩
  | cStr n => ⟨.cBytes, n, none, 0⟩
  | u16Str w e n => ⟨.u16, n, some ⟨w, e, 0⟩, (dataPlace w (unitData n)).offset⟩
  | u16CStr n => ⟨.u16C, n, none, 0⟩

def noFields : Fin 0 → FieldDescriptor := fun i => i.elim0

def noVariants : Fin 0 → VariantDescriptor := fun k => k.elim0

def EnumIr.layout (ir : EnumIr) : LayoutDescriptor :=
  .mk ir.logicalName (.scalarEnum ir.repr ir.endian) ir.repr.layout.size ir.repr.layout.align
    ir.repr.layout.size [] noFields ir.discriminants noVariants

/-- The private one-byte layout of a unit variant. -/
def unitLayout (name : String) : LayoutDescriptor :=
  .mk name .struct unit.wire.size unit.wire.align unit.wire.size [] noFields [] noVariants

namespace Category

/-- The wire that the metadata takes a field's value to have, without its alignment. -/
def outerWire : (c : Category) → c.Rebased → Layout
  | optional _ _, r => r.1
  | c, _ => c.wire

/-- The `align` option of a field, which an optional keeps in its category. -/
def alignOption (fieldAlign : Option Alignment) : Category → Option Alignment
  | optional align _ => align
  | _ => fieldAlign

end Category

section Record
variable (ir : StructIr) (fields : Fin ir.arity → Category)
  (rebased : (i : Fin ir.arity) → (fields i).Rebased)

def outerWireFieldType (i : Fin ir.arity) : Layout :=
  alignedWire ((fields i).alignOption (ir.fieldAlign i)) ((fields i).outerWire (rebased i))

/-- `offset_of` in the wire of the generated module, behind the container's alignment. -/
def compilerFieldOffset (i : Fin ir.arity) : ℕ :=
  (valuePlace ir.align (Layout.record fun i => alignedWire (ir.fieldAlign i) (fields i).wire)).offset +
    Layout.fieldOffset (fun i => alignedWire (ir.fieldAlign i) (fields i).wire) i

def semanticFieldOffset (i : Fin ir.arity) : ℕ :=
  compilerFieldOffset ir fields i + (valuePlace (ir.fieldAlign i) (fields i).wire).offset

/-- The gaps before every field, around every aligned value, and after the last field. -/
def structPaddingRanges : List ByteRange :=
  let (ranges, previousEnd) := (List.finRange ir.arity).foldl (fun acc i =>
      let offset := compilerFieldOffset ir fields i
      let size := (outerWireFieldType ir fields rebased i).size
      let base := (fields i).outerWire (rebased i)
      let around := match (fields i).alignOption (ir.fieldAlign i) with
        | none => []
        | some a =>
          let valueOffset := (Place.raised base a.log).offset
          [⟨offset, offset + valueOffset⟩, ⟨offset + valueOffset + base.size, offset + size⟩]
      (acc.1 ++ ⟨acc.2, offset⟩ :: around, offset + size)) ([], 0)
  ranges ++ [⟨previousEnd, (struct ir fields).wire.size⟩]

/-- The compile-time check that every described field ends inside the root wire. -/
def StructAbi : Prop :=
  ∀ i, compilerFieldOffset ir fields i + (outerWireFieldType ir fields rebased i).size ≤
    (struct ir fields).wire.size

instance : Decidable (StructAbi ir fields rebased) :=
  inferInstanceAs (Decidable (∀ i, compilerFieldOffset ir fields i +
    (outerWireFieldType ir fields rebased i).size ≤ (struct ir fields).wire.size))

/-- The sibling that tags a payload. -/
def externalTag (i : Fin ir.arity) : Option ExternalTagDescriptor := do
  let t ← ir.tagField i
  let tag ← (fields t).tagEnum
  some (.mk (ir.fieldName t) (semanticFieldOffset ir fields t) tag.layout)

/-- The descriptor of one field around its kind. -/
def fieldDescriptor (i : Fin ir.arity) (kind : FieldKind) : FieldDescriptor :=
  .mk (ir.fieldName i) i (compilerFieldOffset ir fields i)
    (outerWireFieldType ir fields rebased i).size (outerWireFieldType ir fields rebased i).align
    kind (fields i).isOptional

/-- The layout of a record whose fields have these kinds. -/
def recordLayout (kinds : Fin ir.arity → FieldKind) : LayoutDescriptor :=
  .mk ir.logicalName .struct (struct ir fields).wire.size (struct ir fields).wire.align
    (struct ir fields).wire.size (structPaddingRanges ir fields rebased)
    (fun i => fieldDescriptor ir fields rebased i (kinds i)) [] noVariants

/-- None when a compile-time check or the metadata of a field fails. -/
def structLayout (kinds : Fin ir.arity → Option ExternalTagDescriptor → Option FieldKind) :
    Option LayoutDescriptor :=
  if StructAbi ir fields rebased then
    (collect fun i => kinds i (externalTag ir fields i)).map (recordLayout ir fields rebased)
  else none

end Record

/-- A unit variant has a layout of its own. -/
def variantLayout (name : String) (c : Category) (layout : Option LayoutDescriptor) :
    Option LayoutDescriptor :=
  match c with
  | unit => some (unitLayout name)
  | _ => layout

section Payload
variable (ir : TaggedIr) (payload : Fin ir.arity → Category)

def variantDescriptor (k : Fin ir.arity) (layout : LayoutDescriptor) : VariantDescriptor :=
  .mk (ir.variantName k) (ir.tagType.toRaw (ir.tag k)) layout (payload k).wire.size
    (payload k).wire.align

/-- The layout of a payload whose variants have these layouts. -/
def payloadLayout (layouts : Fin ir.arity → LayoutDescriptor) : LayoutDescriptor :=
  .mk ir.logicalName .taggedUnion (tagged ir payload).wire.size (tagged ir payload).wire.align
    (tagged ir payload).wire.size [] noFields []
    fun k => variantDescriptor ir payload k (layouts k)

def taggedLayout (layouts : Fin ir.arity → Option LayoutDescriptor) : Option LayoutDescriptor :=
  (collect fun k => variantLayout (ir.logicalName ++ "." ++ ir.variantName k) (payload k)
    (layouts k)).map (payloadLayout ir payload)

end Payload

namespace Category

mutual

/-- `LAYOUT` of a declaration. -/
def layout : (c : Category) → c.Rebased → Option LayoutDescriptor
  | scalarEnum ir, _ | tagSibling ir, _ => some ir.layout
  | struct ir fields, r => structLayout ir fields r fun i => fieldMetadataKind (fields i) (r i)
  | tagged ir payload, r => taggedLayout ir payload fun k => layout (payload k) (r k)
  | primitive _ _, _ | bool, _ | string _, _ | fixedBytes _, _ | unit, _ | array _ _, _
  | optional _ _, _ => none

/-- The kind of a field; `tag` is its external tag. A payload without one and a unit are
unreachable. -/
def fieldMetadataKind : (c : Category) → c.Rebased → Option ExternalTagDescriptor →
    Option FieldKind
  | primitive p e, _, _ => some (.primitive p e)
  | bool, _, _ => some .bool
  | string s, _, _ => some (.string s.descriptor)
  | fixedBytes n, _, _ => some (.fixedBytes n)
  | scalarEnum ir, _, _ | tagSibling ir, _, _ => some ir.layout.fieldKind
  | struct ir fields, r, _ =>
    (structLayout ir fields r fun i => fieldMetadataKind (fields i) (r i)).map
      LayoutDescriptor.fieldKind
  | tagged ir payload, r, some tag =>
    (taggedLayout ir payload fun k => layout (payload k) (r k)).map (.externalTaggedUnion · tag)
  | tagged _ _, _, none | unit, _, _ => none
  | array element n, r, _ =>
    (arrayElementKind element r).map fun kind => .array (.mk kind n element.wire.size)
  | optional _ inner, r, tag => fieldMetadataKind inner r.2 tag

def arrayElementKind : (c : Category) → c.Rebased → Option ArrayElementKind
  | primitive p e, _ => some (.primitive p e)
  | bool, _ => some .bool
  | string s, _ => some (.string s.descriptor)
  | scalarEnum ir, _ | tagSibling ir, _ => some ir.layout.elementKind
  | struct ir fields, r =>
    (structLayout ir fields r fun i => fieldMetadataKind (fields i) (r i)).map
      LayoutDescriptor.elementKind
  | array element n, r =>
    (arrayElementKind element r).map fun kind => .array (.mk kind n element.wire.size)
  | fixedBytes _, _ | tagged _ _, _ | unit, _ | optional _ _, _ => none

end

end Category

end ZeroSchema
