import ZeroSchema.Analysis.Field
import Mathlib.Data.List.Dedup

/-! The names that an expansion defines in its support module, and the check of generated names
that the analysis makes. -/
namespace ZeroSchema

/-- The letter case tables of the language. -/
class Casing where
  toUppercase : Char → List Char
  toLowercase : Char → List Char
  isUppercase : Char → Bool

/-- The tables on the letters of ASCII. -/
@[reducible] def Casing.ascii : Casing where
  toUppercase c := [c.toUpper]
  toLowercase c := [c.toLower]
  isUppercase := Char.isUpper

namespace Casing
variable [Casing]

/-- Snake case to the case of types; an underscore is dropped. -/
def pascal (value : String) : String := .ofList (walk true value.toList)
where
  walk : Bool → List Char → List Char
    | _, [] => []
    | upper, c :: rest =>
      if c = '_' then walk true rest
      else if upper then toUppercase c ++ walk false rest
      else c :: walk false rest

/-- The case of types to snake case; the first letter takes no underscore. -/
def snakeCase (name : String) : String := .ofList (walk true name.toList)
where
  walk : Bool → List Char → List Char
    | _, [] => []
    | first, c :: rest =>
      if isUppercase c then (if first then [] else ['_']) ++ toLowercase c ++ walk false rest
      else c :: walk false rest

def uppercase (value : String) : String := .ofList (value.toList.flatMap toUppercase)

end Casing

/-- The text of an identifier without the marks of a raw one. -/
def normalizedIdent (ident : String) : String := .ofList (trim ident.toList)
where
  trim : List Char → List Char
    | 'r' :: '#' :: rest => trim rest
    | text => text

namespace FieldCategory

/-- The nesting depth of an array. -/
def arrayDepth : FieldCategory → ℕ
  | array element _ => element.arrayDepth + 1
  | _ => 0

def isPath : FieldCategory → Bool
  | path _ => true
  | _ => false

def isArrayElement : FieldCategory → Bool
  | primitive _ | bool | path false => true
  | array element _ => element.isArrayElement
  | c => c.isString

/-- The categories that the analysis of a field arrives at. -/
def isAnalyzed : FieldCategory → Bool
  | array element _ => element.isArrayElement
  | optional (path false) | optional (array (path false) _) => true
  | optional _ => false
  | _ => true

end FieldCategory

/-- An analyzed field. `tagField` is the field that a tagged payload's `tag_field` names. -/
structure FieldIr where
  ident : String
  declarationIndex : ℕ
  category : FieldCategory
  tagField : Option ℕ
  analyzed : category.isAnalyzed = true

structure VariantIr where
  ident : String
  isUnit : Bool

/-- A declaration, as far as generated names depend on it. -/
inductive SchemaIr
  | struct (ident : String) (fields : List FieldIr)
  | scalarEnum (ident : String) (variants : List VariantIr)
  | taggedEnum (ident : String) (variants : List VariantIr)

/-- Where a name is defined: in the support module itself, as a field of the wire type, as an
associated constant of it, as a method of the shared or of the exclusive capability, as a part of
the patch, or as a variant of one of the errors. -/
inductive Scope
  | module
  | wire
  | offset
  | reference
  | mutable
  | patch
  | accessError
  | mutationError

def FieldIr.logicalName (field : FieldIr) : String := normalizedIdent field.ident

def VariantIr.logicalName (variant : VariantIr) : String := normalizedIdent variant.ident

def isTagSibling (fields : List FieldIr) (index : ℕ) : Bool :=
  fields.any fun field => field.tagField = some index

/-! ### The check -/

/-- The names that the check has seen, with one more. -/
def reserve (names : List String) (name : String) : Except String (List String) :=
  if name ∈ names then .error ("generated zero-schema name collision for `" ++ name ++ "`")
  else .ok (name :: names)

namespace SchemaIr
variable [Casing]

/-- What the check reserves, in its order. -/
def reserved : SchemaIr → List String
  | struct _ fields =>
    ["access", "access_mut", "access_prefix", "access_mut_prefix", "SCHEMA_SIZE", "ZERO_IS_VALID",
      "SCHEMA_ALIGN", "SCHEMA_STRIDE", "LAYOUT", "copy_into", "copy_from", "clear"] ++
    fields.flatMap fun field => field.logicalName ::
      if isTagSibling fields field.declarationIndex then [] else [field.logicalName ++ "_mut"]
  | scalarEnum _ variants =>
    ["access", "access_mut", "access_prefix", "access_mut_prefix", "SCHEMA_SIZE", "ZERO_IS_VALID",
      "SCHEMA_ALIGN", "SCHEMA_STRIDE", "LAYOUT"] ++ variants.map (·.logicalName)
  | taggedEnum _ variants =>
    ["tag", "copy_into", "copy_from"] ++ variants.flatMap fun variant =>
      let method := Casing.snakeCase variant.logicalName
      [method, method ++ "_mut"]

def validateGeneratedNames (ir : SchemaIr) : Except String Unit := do
  let _ ← ir.reserved.foldlM reserve []
  .ok ()

end SchemaIr

/-! ### The expansion -/

namespace FieldIr
variable [Casing] (field : FieldIr)

def pascalName : String := Casing.pascal field.logicalName

def fieldAdapterName : String := field.pascalName ++ "Adapter"
def arrayAdapterName : String := field.pascalName ++ "ArrayAdapter"
def optionAdapterName : String := field.pascalName ++ "OptionAdapter"
def arrayScalarAdapterName : String := field.pascalName ++ "ArrayScalarAdapter"
def arrayStringAdapterName : String := field.pascalName ++ "ArrayStringAdapter"
def arrayLeafAdapterName : String := field.pascalName ++ "ArrayLeafAdapter"
def errorBoolVariant : String := field.pascalName ++ "InvalidBool"
def errorStringVariant : String := field.pascalName ++ "String"
def errorChildVariant : String := field.pascalName ++ "Child"
def errorArrayBoolVariant : String := field.pascalName ++ "ArrayInvalidBool"
def errorArrayBoolErrorType : String := field.pascalName ++ "ArrayBoolError"
def errorArrayChildVariant : String := field.pascalName ++ "ArrayChild"
def errorArrayChildErrorType : String := field.pascalName ++ "ArrayChildError"
def errorArrayStringVariant : String := field.pascalName ++ "ArrayString"
def errorArrayStringErrorType : String := field.pascalName ++ "ArrayStringError"
def fieldOffsetName : String := "__ZERO_SCHEMA_OFFSET_" ++ Casing.uppercase field.logicalName

/-- The adapters that the elements of an array are written through on their own. -/
def elementAdapters (leaf : FieldCategory) : List String :=
  match leaf with
  | .primitive _ | .bool => [field.arrayScalarAdapterName]
  | leaf => if leaf.isString then [field.arrayStringAdapterName] else []

/-- The adapters of an array of the given leaf and depth. The own adapter of a nested array is an
alias of a composition over the adapter of its innermost level. -/
def arrayAdapters (leaf : FieldCategory) (depth : ℕ) : List String :=
  field.elementAdapters leaf ++
  if depth = 1 then [field.arrayAdapterName]
  else [field.arrayLeafAdapterName, field.arrayAdapterName]

/-- The adapters that a field is written through. -/
def adapters : List String :=
  match field.category with
  | .array element length =>
    let category := FieldCategory.array element length
    field.arrayAdapters category.leaf category.arrayDepth
  | .optional (.array element length) =>
    let category := FieldCategory.array element length
    field.optionAdapterName :: field.arrayAdapters category.leaf category.arrayDepth
  | .optional _ => [field.optionAdapterName]
  | .path _ => []
  | _ => [field.fieldAdapterName]

/-- The element error type of an array that the access error wraps. -/
def leafErrorTypes (leaf : FieldCategory) : List String :=
  match leaf with
  | .bool => [field.errorArrayBoolErrorType]
  | .path _ => [field.errorArrayChildErrorType]
  | leaf => if leaf.isString then [field.errorArrayStringErrorType] else []

def leafErrorVariants (leaf : FieldCategory) : List String :=
  match leaf with
  | .bool => [field.errorArrayBoolVariant]
  | .path _ => [field.errorArrayChildVariant]
  | leaf => if leaf.isString then [field.errorArrayStringVariant] else []

/-- The error types that a field adds to the module. -/
def errorTypes : List String :=
  match field.category with
  | .array element length => field.leafErrorTypes (FieldCategory.array element length).leaf
  | .optional (.array _ _) => [field.errorArrayChildErrorType]
  | _ => []

/-- The variants that a field adds to the access error. -/
def errorVariants : List String :=
  match field.category with
  | .bool => [field.errorBoolVariant]
  | .path _ | .optional (.path _) => [field.errorChildVariant]
  | .array element length => field.leafErrorVariants (FieldCategory.array element length).leaf
  | .optional (.array _ _) => [field.errorArrayChildVariant]
  | category => if category.isString then [field.errorStringVariant] else []

/-- The depth of a nested array with elements whose mutation can fail. -/
def pathDepth : Option ℕ :=
  let leaf := field.category.leaf
  if 2 ≤ field.category.arrayDepth ∧ (leaf.isPath ∨ leaf.isString) then
    some field.category.arrayDepth
  else none

end FieldIr

namespace SchemaIr
variable [Casing]

/-- The types of every support module of a declaration. -/
def supportTypes (logicalName : String) : List String :=
  [logicalName ++ "Wire", logicalName ++ "Ref", logicalName ++ "Mut", logicalName ++ "Patch",
    logicalName ++ "AccessError", logicalName ++ "MutationError", logicalName ++ "Owner",
    logicalName ++ "Support", "__ZeroSchemaInputAccessToken"]

/-- The other items of the support module of a record whatever its fields are called. -/
def recordItems (fields : List FieldIr) : List String :=
  ["__MutationArrayError", "__ZERO_SCHEMA_ERROR_BOUNDARY"] ++
  (if fields.any (·.tagField.isSome) then
    ["__zero_schema_same_type", "__zero_schema_assert_tag_type",
      "__zero_schema_assert_all_tag_types"]
  else []) ++
  if fields.any fun field => field.category.arrayLeaf.any (·.isString) then
    ["__zero_schema_string_kind"]
  else []

/-- What the expansion of a record defines. -/
def structNames (logicalName : String) (fields : List FieldIr) : Scope → List String
  | .module => supportTypes logicalName ++ recordItems fields ++
    (fields.flatMap fun field => field.adapters ++ field.errorTypes)
  | .wire | .patch => fields.map (·.logicalName)
  | .offset => fields.map (·.fieldOffsetName)
  | .reference => fields.map (·.logicalName) ++ ["copy_into"]
  | .mutable => fields.map (·.logicalName) ++
    ((fields.filter fun field => !isTagSibling fields field.declarationIndex).map
      (·.logicalName ++ "_mut")) ++ ["clear", "copy_into", "copy_from"]
  | .accessError => "Layout" :: fields.flatMap (·.errorVariants)
  | .mutationError => ["Access", "Layout", "Field", "Array"] ++
    (fields.filterMap (·.pathDepth)).dedup.map fun depth => "ArrayPath" ++ toString depth

def scalarEnumNames (logicalName : String) : Scope → List String
  | .module => supportTypes logicalName
  | .wire | .offset => []
  | .reference => ["get", "copy_into"]
  | .mutable => ["get", "set", "copy_into", "copy_from"]
  | .patch => ["value"]
  | .accessError => ["Layout", "UnknownEnumValue"]
  | .mutationError => ["Access", "Layout"]

/-- What the expansion of a tagged payload defines. A unit variant has a wire type and a layout
of its own, named by its position. -/
def taggedEnumNames (logicalName : String) (variants : List VariantIr) : Scope → List String
  | .module => supportTypes logicalName ++
    (variants.zipIdx.filter (·.1.isUnit)).flatMap fun (_, index) =>
      ["Variant" ++ toString index ++ "Wire", "Variant" ++ toString index ++ "Layout"]
  | .wire => variants.zipIdx.map fun (_, index) => "variant_" ++ toString index
  | .offset => []
  | .reference => "tag" :: (variants.map fun variant => Casing.snakeCase variant.logicalName) ++
    ["copy_into"]
  | .mutable =>
    "tag" :: (variants.map fun variant => Casing.snakeCase variant.logicalName ++ "_mut") ++
    ["copy_into", "copy_from"]
  | .patch => variants.map (·.logicalName)
  | .accessError => ["Layout", "UnknownUnionTag"] ++
    (variants.filter (!·.isUnit)).map (·.logicalName)
  | .mutationError => ["Access", "Layout", "TagMismatch"]

/-- The names that an expansion defines, in each scope. -/
def generated : SchemaIr → Scope → List String
  | struct ident fields => structNames (normalizedIdent ident) fields
  | scalarEnum ident _ => scalarEnumNames (normalizedIdent ident)
  | taggedEnum ident variants => taggedEnumNames (normalizedIdent ident) variants

end SchemaIr

end ZeroSchema
