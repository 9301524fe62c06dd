import ZeroSchema.Analysis.Declare
import ZeroSchema.Schema.Wire

/-! The expansion of an analyzed declaration: the storage that the generated types have once the
compiler has resolved what they name, and the checks that the expansion leaves to the compiler. -/
namespace ZeroSchema
open Control

/-- Why an expansion is refused: by the generator, or by the compiler. -/
inductive ExpansionError
  | emitted (message : String)
  | unresolved
  | zeroLength
  | zeroValidOption
  | tagType
  | zeroSized
deriving DecidableEq

/-- What the compiler knows where a declaration stands: the schemas that types are, the values of
constants, and the values of scalar enums that paths denote. -/
structure Environment where
  schema : SynType → Option Category
  constant : String → Option ℕ
  tag : TagPath → Option ((ir : EnumIr) × ir.Value)

/-! ### Alignment markers -/

theorem alignmentMarker_log {value : ℕ}
    (h : ¬(value = 0 ∨ ¬value.isPowerOfTwo ∨ 2 ^ 29 < value)) : value.log2 ≤ 29 := by
  obtain ⟨log, hlog, hvalue⟩ := (LitInt.alignment_iff value).mp h
  rwa [hvalue, Nat.log2_two_pow]

def alignmentMarker (value : ℕ) : Outcome ExpansionError Alignment :=
  if h : value = 0 ∨ ¬value.isPowerOfTwo ∨ 2 ^ 29 < value then
    .err (.emitted "unsupported wire alignment")
  else .ok ⟨value.log2, alignmentMarker_log h⟩

def fieldMarker : Option ℕ → Outcome ExpansionError (Option Alignment)
  | none => .ok none
  | some value => do
    let marker ← alignmentMarker value
    .ok (some marker)

/-- The container's alignment is expected to have a marker. -/
def rootMarker : Option ℕ → Outcome ExpansionError (Option Alignment)
  | none => .ok none
  | some value =>
    match alignmentMarker value with
    | .ok marker => .ok (some marker)
    | _ => .unreachable

/-- The lengths whose values the expansion asserts to be nonzero. -/
def nonzeroAssertionsCategory : FieldCategory → List String
  | .fixedBytes (.symbolic name) => [name]
  | .array element length =>
    (match length with
      | .symbolic name => [name]
      | .literal _ => []) ++ nonzeroAssertionsCategory element
  | .optional inner => nonzeroAssertionsCategory inner
  | _ => []

def TagPath.ty (p : TagPath) : SynType :=
  .path false p.leadingColon (p.segments.map fun name => ⟨name, true⟩)

namespace Environment
variable (env : Environment)

/-! ### Storage -/

/-- The value of an array length. -/
def length : LengthExpr → Outcome ExpansionError ℕ
  | .literal _ value => .ok value
  | .path _ _ name =>
    match env.constant name with
    | some value => .ok value
    | none => .err .unresolved
  | .other => .err .unresolved

/-- The length that a type carries. -/
def arrayLength : SynType → Outcome ExpansionError ℕ
  | .array _ len => env.length len
  | .reference _ _ elem => arrayLength elem
  | _ => .err (.emitted "internal zero-schema array analysis mismatch")

/-- A type that has a wire of its own: a record or a scalar enum. -/
def wireOf (ty : SynType) : Outcome ExpansionError Category :=
  match env.schema ty with
  | some c => if c.isPath then .ok c else .err .unresolved
  | none => .err .unresolved

/-- A type that is stored under an external tag. -/
def payloadOf (ty : SynType) : Outcome ExpansionError Category :=
  match env.schema ty with
  | some c => if c.payloadEnum.isSome then .ok c else .err .unresolved
  | none => .err .unresolved

def wireType (endian : WireEndian) (ty : SynType) (category : FieldCategory) :
    Outcome ExpansionError Category :=
  match category with
  | .primitive p => .ok (.primitive p endian)
  | .bool => .ok .bool
  | .borrowedStr capacity lenType endian => .ok (.string (.str lenType endian capacity))
  | .borrowedCStr capacity => .ok (.string (.cStr capacity))
  | .borrowedU16Str capacity lenType endian => .ok (.string (.u16Str lenType endian capacity))
  | .borrowedU16CStr capacity => .ok (.string (.u16CStr capacity))
  | .fixedBytes _ => do
    let length ← env.arrayLength ty
    .ok (.fixedBytes length)
  | .path true => env.payloadOf ty
  | .path false => env.wireOf ty
  | .array element _ =>
    match ty with
    | .array elem _ => do
      let element ← wireType endian elem element
      let length ← env.arrayLength ty
      .ok (.array element length)
    | _ => .err (.emitted "internal zero-schema array analysis mismatch")
  | .optional inner =>
    -- The analysis keeps the argument of an `Option<T>` beside its category.
    match ty with
    | .generic _ _ _ argument => wireType endian argument inner
    | _ => .unreachable
termination_by structural category

/-- The storage of a field. The sibling that stores a tag is a scalar enum, and a value that all
zero storage may be is not optional. -/
def wireFieldType (field : DeclaredField) (sibling : Bool) : Outcome ExpansionError Category :=
  if ∃ name ∈ nonzeroAssertionsCategory field.category, env.constant name = some 0 then
    .err .zeroLength
  else do
    let endian := field.options.endian.getD field.defaultEndian
    let base ← env.wireType endian field.ty field.category
    if sibling then
      match base with
      | .scalarEnum ir => .ok (.tagSibling ir)
      | _ => .err .tagType
    else match field.category with
    | .optional _ =>
      if base.zeroState = .zeroInvalid then do
        let align ← fieldMarker field.options.align
        .ok (.optional align base)
      else .err .zeroValidOption
    | _ => .ok base

/-- The alignment wrapper of a field. That of an optional is part of its storage. -/
def wireFieldAlign (field : DeclaredField) : Outcome ExpansionError (Option Alignment) :=
  match field.category with
  | .optional _ => .ok none
  | _ => fieldMarker field.options.align

/-! ### Declarations -/

def emitStruct [Target] (ident : String) (align : Option ℕ) (fields : List DeclaredField)
    (links : Fin fields.length → Option (Fin fields.length)) : Outcome ExpansionError Category := do
  let categories ← each fun i =>
    env.wireFieldType (fields.get i) (decide (∃ j, links j = some i))
  let aligns ← each fun i => wireFieldAlign (fields.get i)
  let root ← rootMarker align
  let ir : StructIr :=
    { logicalName := normalizedIdent ident
      align := root
      arity := fields.length
      fieldName := fun i => (fields.get i).logicalName
      fieldAlign := aligns
      tagField := links }
  if ∃ i t, links i = some t ∧ (categories t).tagEnum ≠ (categories i).payloadEnum then
    .err .tagType
  else if (Category.struct ir categories).wire.size = 0 then .err .zeroSized
  else .ok (.struct ir categories)

/-- The enum that the tags of a payload are values of. -/
def tagTypeOf (owner : TagPath) : Outcome ExpansionError EnumIr :=
  match env.schema owner.ty with
  | some (.scalarEnum ir) => .ok ir
  | _ => .err .unresolved

def tagValue (tagType : EnumIr) (tag : TagPath) : Outcome ExpansionError tagType.Value :=
  match env.tag tag with
  | some value => if h : value.1 = tagType then .ok (h ▸ value.2) else .err .tagType
  | none => .err .unresolved

def payloadType (v : TaggedVariant) : Outcome ExpansionError Category :=
  match v.payload with
  | none => .ok .unit
  | some ty => env.wireOf ty

def emitTaggedEnum (ident : String) (variants : List TaggedVariant) :
    Outcome ExpansionError Category := do
  let first ← Outcome.expect variants.head?
  let tagType ← env.tagTypeOf first.owner
  let tags ← each fun k => env.tagValue tagType (variants.get k).tag
  let payload ← each fun k => env.payloadType (variants.get k)
  let ir : TaggedIr :=
    { logicalName := normalizedIdent ident
      arity := variants.length
      variantName := fun k => normalizedIdent (variants.get k).ident
      tagType := tagType
      tagKey := fun k => (variants.get k).tag.text
      tag := tags }
  .ok (.tagged ir payload)

def emit [Target] : Analyzed → Outcome ExpansionError Category
  | .struct ident align fields links => env.emitStruct ident align fields links
  | .scalarEnum _ ir _ => .ok (.scalarEnum ir)
  | .taggedEnum ident variants => env.emitTaggedEnum ident variants

end Environment

/-! ### What the analysis leaves to the expansion -/

/-- An array element whose type carries what its category says. -/
inductive CarriesElement : SynType → FieldCategory → Prop
  | primitive {ty} (p : Primitive) : CarriesElement ty (.primitive p)
  | bool {ty} : CarriesElement ty .bool
  | string {ty c} (hstring : c.isString = true) : CarriesElement ty c
  | path {ty} : CarriesElement ty (.path false)
  | array {elem len c length} (hlength : arrayLength len = .ok length)
    (helement : CarriesElement elem c) : CarriesElement (.array elem len) (.array c length)

/-- A field whose type carries what its category says. -/
inductive Carries : SynType → FieldCategory → Prop
  | element {ty c} (helement : CarriesElement ty c) : Carries ty c
  | fixedBytes {lifetime mutable elem len length} (hlength : arrayLength len = .ok length) :
    Carries (.reference lifetime mutable (.array elem len)) (.fixedBytes length)
  | path {ty} (tagged : Bool) : Carries ty (.path tagged)
  | optional {qself qualifier ident argument} :
    Carries (.generic qself qualifier ident argument) (.optional (.path false))
  | optionalArray {qself qualifier ident elem len length} (hlength : arrayLength len = .ok length) :
    Carries (.generic qself qualifier ident (.array elem len))
      (.optional (.array (.path false) length))

section
variable {options : FieldOptions} {endian : WireEndian} {ty target : SynType}
variable {c out : FieldCategory}

theorem classifyArrayElement_carries (h : classifyArrayElement options ty = .ok c) :
    CarriesElement ty c := by
  induction ty generalizing c with
  | array elem len ih =>
    unfold classifyArrayElement at h
    obtain ⟨length, hlength, h⟩ := except_bind_ok h
    obtain ⟨element, helement, h⟩ := except_bind_ok h
    obtain rfl := Except.ok.inj h
    exact .array hlength (ih helement)
  | _ =>
    have htype := classifyArrayElement_type h
    cases htype with
    | primitive p => exact .primitive p
    | bool => exact .bool
    | string htarget hstring => exact .string (borrowedString_isString hstring)
    | path => exact .path

theorem classifyOptionalInner_carries {qself : Bool} {qualifier : List PathSegment}
    {ident : String} (h : classifyOptionalInner ty = .ok c) :
    Carries (.generic qself qualifier ident ty) (.optional c) := by
  unfold classifyOptionalInner at h
  split at h
  · cases h
  · split at h
    · cases h
    · split at h
      · obtain ⟨length, hlength, h⟩ := except_bind_ok h
        split_ifs at h
        obtain rfl := Except.ok.inj h
        exact .optionalArray hlength
      · split_ifs at h
        obtain rfl := Except.ok.inj h
        exact .optional

theorem classifyOptionField_carries (h : classifyOptionField ty = .ok (some c)) :
    Carries ty c := by
  unfold classifyOptionField at h
  split_ifs at h
  · split at h
    · split_ifs at h
      obtain ⟨inner, hinner, hcat⟩ := except_map_ok h
      obtain rfl := Option.some.inj hcat
      exact classifyOptionalInner_carries hinner
    · split_ifs at h
    · cases h
  · cases h

theorem classifyBorrowed_carries (htarget : ty.borrowedTarget = some target)
    (h : classifyBorrowed target options = .ok c) : Carries ty c := by
  obtain ⟨category, hstring, h⟩ := except_bind_ok h
  cases category with
  | some category =>
    obtain rfl := Except.ok.inj h
    exact .element (.string (borrowedString_isString hstring))
  | none =>
    dsimp only at h
    split at h
    · split_ifs at h
      obtain ⟨length, hlength, rfl⟩ := except_map_ok h
      unfold SynType.borrowedTarget at htarget
      split at htarget
      · obtain rfl := Option.some.inj htarget
        exact .fixedBytes hlength
      · cases htarget
    · cases h

/-- The classification keeps the lengths and the arguments of the type. -/
theorem classifyField_carries (h : classifyField ty options = .ok c) : Carries ty c := by
  unfold classifyField at h
  split at h
  · obtain rfl := Except.ok.inj h
    exact .element (.primitive _)
  · split_ifs at h
    · obtain rfl := Except.ok.inj h
      exact .element .bool
    · split at h
      · next target htarget => exact classifyBorrowed_carries htarget h
      · obtain ⟨category, hoption, h⟩ := except_bind_ok h
        cases category with
        | some category =>
          obtain rfl := Except.ok.inj h
          exact classifyOptionField_carries hoption
        | none =>
          dsimp only at h
          split at h
          · obtain ⟨length, hlength, h⟩ := except_bind_ok h
            obtain ⟨element, helement, h⟩ := except_bind_ok h
            obtain rfl := Except.ok.inj h
            exact .element (.array hlength (classifyArrayElement_carries helement))
          · obtain rfl := Except.ok.inj h
            exact .path _
          · obtain rfl := Except.ok.inj h
            exact .path _
          · cases h

theorem CarriesElement.setArrayLeaf {leaf : FieldCategory} (h : CarriesElement ty c)
    (hleaf : leaf.isString = true) : CarriesElement ty (c.setArrayLeaf leaf) := by
  induction h with
  | primitive | bool | path => exact .string hleaf
  | string hstring =>
    rename_i c
    cases c with
    | borrowedStr | borrowedCStr | borrowedU16Str | borrowedU16CStr => exact .string hleaf
    | _ => cases hstring
  | array hlength helement ih => exact .array hlength ih

/-- The options of a string make another string of it. -/
theorem applyOptions_isString (hstring : c.isString = true)
    (h : applyOptions options endian c = .ok out) : out.isString = true := by
  cases c with
  | borrowedStr | borrowedCStr | borrowedU16Str | borrowedU16CStr =>
    rw [applyOptions] at h
    split_ifs at h
    obtain rfl := Except.ok.inj h
    rfl
  | _ => cases hstring

/-- Options change no length. -/
theorem applyOptions_carries (hc : Carries ty c) (h : applyOptions options endian c = .ok out) :
    Carries ty out := by
  by_cases hstring : c.isString = true
  · exact .element (.string (applyOptions_isString hstring h))
  · cases c with
    | borrowedStr | borrowedCStr | borrowedU16Str | borrowedU16CStr => exact absurd rfl hstring
    | path =>
      rw [applyOptions] at h
      split_ifs at h
      obtain rfl := Except.ok.inj h
      exact .path _
    | primitive | optional =>
      rw [applyOptions] at h
      split_ifs at h
      obtain rfl := Except.ok.inj h
      exact hc
    | bool | fixedBytes | array =>
      rw [applyOptions, withoutOptions] at h
      split_ifs at h
      obtain rfl := Except.ok.inj h
      exact hc

theorem analyzeField_carries (h : analyzeField ty options endian = .ok c) : Carries ty c := by
  obtain ⟨category, hclassify, happly⟩ := except_bind_ok h
  have hcarries := classifyField_carries hclassify
  rcases applyFieldOptions_cases happly with ⟨hleaf, hstring, leaf, happlied, rfl⟩ | ⟨-, happly⟩
  · cases hcarries with
    | element helement =>
      exact .element (helement.setArrayLeaf (applyOptions_isString hstring happlied))
    | _ => cases hleaf
  · exact applyOptions_carries hcarries happly

end

end ZeroSchema
