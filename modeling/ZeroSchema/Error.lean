import ZeroSchema.Library.Radix
import ZeroSchema.Target

/-! Layout errors, error kinds, the structured path of a schema error, and the place in a
schema that the leaf errors of a field or an array element name. -/
namespace ZeroSchema

inductive LayoutError
  | incorrectSize (expected actual : ℕ)
  | insufficientBytes (required actual : ℕ)
  | misaligned (required address : ℕ)
  | offsetOverflow
deriving DecidableEq

inductive ErrorKind
  | layout
  | invalidBool
  | unknownEnumValue
  | lengthOutOfBounds
  | lengthUnrepresentable
  | invalidUtf8
  | missingNul
  | unknownUnionTag
  | capacityExceeded
  | arrayIndexOutOfBounds
  | arrayLengthMismatch
  | tagMismatch
  | tagOnlyPatch
  | incompleteUnionSwitch
  | incompleteOptionalInitialization
deriving DecidableEq

inductive ErrorPathSegment
  | field (name : String)
  | index (i : ℕ)
  | variant (name : String)
deriving DecidableEq

/-- What the inspection interface of a generated error reports: the schema it was raised
for, the segments from there down to the leaf, and the leaf's kind. -/
structure SchemaError where
  schema : String
  path : List ErrorPathSegment
  kind : ErrorKind
  source : Option LayoutError
deriving DecidableEq

namespace SchemaError

/-- A leaf error below the segments of `path`. -/
def leaf (schema : String) (path : List ErrorPathSegment) (kind : ErrorKind) : SchemaError :=
  ⟨schema, path, kind, none⟩

/-- The `Layout` variant that every generated error type has. -/
def layout (schema : String) (error : LayoutError) : SchemaError :=
  ⟨schema, [], .layout, some error⟩

/-- A child's error reported by the enclosing schema: `schema()` is the outermost one, and
the child's path follows the segments that lead to it. -/
def below (schema : String) (path : List ErrorPathSegment) (child : SchemaError) : SchemaError :=
  ⟨schema, path ++ child.path, child.kind, child.source⟩

end SchemaError

/-- Where a value sits below the record that reports its errors: the field, the lengths of
the enclosing arrays, outermost first, and the flat position among all their elements. -/
structure Context where
  schema : String
  field : String
  dims : List ℕ
  flat : ℕ

namespace Context

/-- The context of a whole field. -/
def ofField (schema field : String) : Context := ⟨schema, field, [], 0⟩

/-- A root value is not below any field, and its own errors never mention this. -/
def root : Context := ofField "" ""

/-- The indices that generated code recovers from a flat position: one remainder for each
inner level, and the outermost index is what is left. -/
def indexPath (dims : List ℕ) (flat : ℕ) : List ℕ :=
  match dims with
  | [] => []
  | _ :: inner => Radix.split flat inner.reverse

def path (ctx : Context) : List ErrorPathSegment :=
  .field ctx.field :: (indexPath ctx.dims ctx.flat).map .index

def leaf (ctx : Context) (kind : ErrorKind) : SchemaError := .leaf ctx.schema ctx.path kind

def layout (ctx : Context) (error : LayoutError) : SchemaError := .layout ctx.schema error

def below (ctx : Context) (child : SchemaError) : SchemaError := .below ctx.schema ctx.path child

/-- Flat position of row element `j` for a row at flat position `index`. -/
def position [Target] (index n j : ℕ) : ℕ :=
  min usizeMax (min usizeMax (index * n) + j)

/-- The context of element `j` of an array of length `n`. -/
def element [Target] (ctx : Context) (n j : ℕ) : Context :=
  { ctx with dims := ctx.dims ++ [n], flat := position ctx.flat n j }

end Context

end ZeroSchema
