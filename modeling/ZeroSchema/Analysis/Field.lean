import ZeroSchema.StringField

/-! The analysis of one field declaration: what its type and its options make of it, or the
message it is rejected with. -/
namespace ZeroSchema

/-- A path segment; `bare` when it has no arguments. -/
structure PathSegment where
  ident : String
  bare : Bool
deriving DecidableEq

/-- The expression of an array length. A literal has a suffix or none. -/
inductive LengthExpr
  | literal (suffix : String) (value : ℕ)
  | path (qself simple : Bool) (name : String)
  | other
deriving DecidableEq

/-- A field type as it is spelled. The last segment of a `generic` path has one type argument. -/
inductive SynType
  | path (qself leadingColon : Bool) (segments : List PathSegment)
  | generic (qself : Bool) (qualifier : List PathSegment) (ident : String) (argument : SynType)
  | reference (lifetime : Option String) (mutable : Bool) (elem : SynType)
  | array (elem : SynType) (len : LengthExpr)
  | other

inductive ArrayLength
  | literal (value : ℕ)
  | symbolic (name : String)
deriving DecidableEq

inductive FieldCategory
  | primitive (primitive : Primitive)
  | bool
  | borrowedStr (capacity : ℕ) (lenType : WireInt) (endian : WireEndian)
  | borrowedCStr (capacity : ℕ)
  | borrowedU16Str (capacity : ℕ) (lenType : WireInt) (endian : WireEndian)
  | borrowedU16CStr (capacity : ℕ)
  | fixedBytes (length : ArrayLength)
  | path (tagged : Bool)
  | array (element : FieldCategory) (length : ArrayLength)
  | optional (inner : FieldCategory)
deriving DecidableEq

/-- The field options that the analysis of the category looks at. -/
structure FieldOptions where
  capacity : Option ℕ
  lenType : Option WireInt
  endian : Option WireEndian
  tagField : Option String

namespace FieldCategory

def isString : FieldCategory → Bool
  | borrowedStr _ _ _ | borrowedCStr _ | borrowedU16Str _ _ _ | borrowedU16CStr _ => true
  | _ => false

def stringCapacity : FieldCategory → Option ℕ
  | borrowedStr n _ _ | borrowedCStr n | borrowedU16Str n _ _ | borrowedU16CStr n => some n
  | _ => none

/-- The innermost element of an array. -/
def arrayLeaf : FieldCategory → Option FieldCategory
  | array element _ => some (element.arrayLeaf.getD element)
  | _ => none

/-- What a field stores in each place: the innermost element, or the field itself. -/
def leaf (c : FieldCategory) : FieldCategory := c.arrayLeaf.getD c

def setArrayLeaf : FieldCategory → FieldCategory → FieldCategory
  | array element length, leaf => array (element.setArrayLeaf leaf) length
  | _, leaf => leaf

end FieldCategory

namespace SynType

/-- `name`, `core::primitive::name` or `std::primitive::name`. -/
def primitiveIdent : SynType → Option String
  | path false _ [name] => if name.bare then some name.ident else none
  | path false _ [root, primitive, name] =>
    if (root.ident = "core" ∨ root.ident = "std") ∧ primitive.ident = "primitive" ∧
        root.bare ∧ primitive.bare ∧ name.bare then some name.ident
    else none
  | _ => none

def primitive (ty : SynType) : Option Primitive :=
  match ty.primitiveIdent with
  | some "u8" => some .u8
  | some "i8" => some .i8
  | some "u16" => some .u16
  | some "i16" => some .i16
  | some "u32" => some .u32
  | some "i32" => some .i32
  | some "u64" => some .u64
  | some "i64" => some .i64
  | some "f32" => some .f32
  | some "f64" => some .f64
  | _ => none

def boolType (ty : SynType) : Bool := ty.primitiveIdent = some "bool"

def isSingleIdent (ty : SynType) (expected : String) : Bool :=
  match ty with
  | path false false [name] => name.bare && name.ident = expected
  | _ => false

def borrowedTarget : SynType → Option SynType
  | reference (some _) false elem => some elem
  | _ => none

def isPath : SynType → Bool
  | path _ _ _ | generic _ _ _ _ => true
  | _ => false

/-- A path without `<T as …>` in front. -/
def isPlainPath : SynType → Bool
  | path qself _ _ | generic qself _ _ _ => !qself
  | _ => false

def pathEndsInOption : SynType → Bool
  | path false _ segments => (segments.getLast?.map (·.ident)) = some "Option"
  | generic false _ ident _ => ident = "Option"
  | _ => false

end SynType

def isCanonicalOptionPath (names : List String) : Bool :=
  names = ["Option"] || names = ["core", "option", "Option"] || names = ["std", "option", "Option"]

/-! ### Classification -/

def requiredCapacity (options : FieldOptions) : Except String ℕ :=
  match options.capacity with
  | some value => .ok value
  | none => .error "borrowed string fields require #[zero(capacity = N)]"

def lengthType (options : FieldOptions) : WireInt := options.lenType.getD .u32

/-- Literals are nonzero and have no suffix; a path is a const parameter or a constant. -/
def arrayLength : LengthExpr → Except String ArrayLength
  | .literal suffix value =>
    if suffix ≠ "" then .error "array length must be an unsuffixed integer literal"
    else if value = 0 then .error "zero-length schema arrays are unsupported"
    else .ok (.literal value)
  | .path false true name => .ok (.symbolic name)
  | .path _ _ _ | .other =>
    .error "array length must be a nonzero integer literal, direct const parameter, or simple const path"

/-- One of the four bounded borrowed string forms, or none. -/
def borrowedString (target : SynType) (options : FieldOptions) :
    Except String (Option FieldCategory) :=
  if target.isSingleIdent "str" then
    (requiredCapacity options).map fun capacity =>
      some (.borrowedStr capacity (lengthType options) .native)
  else if target.isSingleIdent "CStr" then
    (requiredCapacity options).map fun capacity => some (.borrowedCStr capacity)
  else if target.isSingleIdent "U16Str" then
    (requiredCapacity options).map fun capacity =>
      some (.borrowedU16Str capacity (lengthType options) .native)
  else if target.isSingleIdent "U16CStr" then
    (requiredCapacity options).map fun capacity => some (.borrowedU16CStr capacity)
  else .ok none

/-- The string that a borrowed type is, when it is one. -/
def borrowedStringOf (ty : SynType) (options : FieldOptions) :
    Except String (Option FieldCategory) :=
  match ty.borrowedTarget with
  | some target => borrowedString target options
  | none => .ok none

def classifyArrayElement (options : FieldOptions) (ty : SynType) : Except String FieldCategory :=
  if ty.pathEndsInOption then
    .error "Option<T> is not supported as a fixed-array element; put Option around the complete array"
  else match ty.primitive with
  | some primitive => .ok (.primitive primitive)
  | none =>
    if ty.boolType then .ok .bool
    else match borrowedStringOf ty options with
    | .error message => .error message
    | .ok (some category) => .ok category
    | .ok none =>
      match ty with
      | .array elem len => do
        let length ← arrayLength len
        let element ← classifyArrayElement options elem
        .ok (.array element length)
      | .path _ _ _ | .generic _ _ _ _ => .ok (.path false)
      | _ =>
        .error "array elements must be primitives, bool, scalar enums, finite nested schemas, bounded borrowed strings (&str, &CStr, &U16Str, &U16CStr), or nested fixed arrays of those"

/-- An absent value is all zero, so the present ones must not be. -/
def classifyOptionalInner (ty : SynType) : Except String FieldCategory :=
  if ty.pathEndsInOption then
    .error "nested Option<Option<T>> is unsupported; the all-zero sentinel represents one absence state"
  else if ty.primitive.isSome || ty.boolType then
    .error "Option<T> cannot use a primitive or bool T because the all-zero wire is valid"
  else match ty with
  | .array elem len => do
    let length ← arrayLength len
    if elem.pathEndsInOption then
      .error "Option<T> is not supported as a fixed-array element; put Option around the complete array"
    else if elem.primitive.isSome || elem.boolType then
      .error "Option<[T; N]> requires an all-zero-invalid scalar-enum or schema element"
    else if elem.isPlainPath then .ok (.array (.path false) length)
    else .error "Option<[T; N]> requires an all-zero-invalid scalar-enum or schema element"
  | _ =>
    if ty.isPlainPath then .ok (.path false)
    else
      .error "Option<T> cannot use string or fixed-byte T because the all-zero wire can be valid"

/-- Recognizes the three public spellings of `Option<T>` only. -/
def classifyOptionField (ty : SynType) : Except String (Option FieldCategory) :=
  if ty.pathEndsInOption then
    match ty with
    | .generic _ qualifier ident argument =>
      if isCanonicalOptionPath (qualifier.map (·.ident) ++ [ident]) then
        (classifyOptionalInner argument).map fun inner => some (.optional inner)
      else
        .error "Option must be spelled Option<T>, core::option::Option<T>, or std::option::Option<T>"
    | .path _ _ segments =>
      if isCanonicalOptionPath (segments.map (·.ident)) then
        .error "zero-sentinel Option fields require exactly one type argument: Option<T>"
      else
        .error "Option must be spelled Option<T>, core::option::Option<T>, or std::option::Option<T>"
    | _ => .ok none
  else .ok none

/-- A borrowed field is a string or fixed bytes. -/
def classifyBorrowed (target : SynType) (options : FieldOptions) : Except String FieldCategory := do
  match ← borrowedString target options with
  | some category => .ok category
  | none =>
    match target with
    | .array elem len =>
      if elem.isSingleIdent "u8" then (arrayLength len).map .fixedBytes
      else
        .error "unsupported borrowed field; use &str, &CStr, &U16Str, &U16CStr, or &[u8; N]"
    | _ => .error "unsupported borrowed field; use &str, &CStr, &U16Str, &U16CStr, or &[u8; N]"

def classifyField (ty : SynType) (options : FieldOptions) : Except String FieldCategory :=
  match ty.primitive with
  | some primitive => .ok (.primitive primitive)
  | none =>
    if ty.boolType then .ok .bool
    else match ty.borrowedTarget with
    | some target => classifyBorrowed target options
    | none => do
      match ← classifyOptionField ty with
      | some category => .ok category
      | none =>
        match ty with
        | .array elem len => do
          let length ← arrayLength len
          let element ← classifyArrayElement options elem
          .ok (.array element length)
        | .path _ _ _ | .generic _ _ _ _ => .ok (.path options.tagField.isSome)
        | _ => .error "unsupported schema field type"

/-! ### Options -/

/-- A category that takes no option but `align`. -/
def withoutOptions (options : FieldOptions) (category : FieldCategory) :
    Except String FieldCategory :=
  if options.capacity.isSome ∨ options.lenType.isSome ∨ options.endian.isSome ∨
      options.tagField.isSome then
    .error "this zero option is not applicable to this field"
  else .ok category

/-- The options of a category that is no array of strings. -/
def applyOptions (options : FieldOptions) (defaultEndian : WireEndian) :
    FieldCategory → Except String FieldCategory
  | .primitive p =>
    if options.capacity.isSome ∨ options.lenType.isSome ∨ options.tagField.isSome then
      .error "this zero option is not applicable to a primitive field"
    else .ok (.primitive p)
  | .borrowedStr capacity lenType _ =>
    if options.tagField.isSome then
      .error "tag_field is only applicable to tagged payload fields"
    else .ok (.borrowedStr capacity lenType (options.endian.getD defaultEndian))
  | .borrowedU16Str capacity lenType _ =>
    if options.tagField.isSome then
      .error "tag_field is only applicable to tagged payload fields"
    else .ok (.borrowedU16Str capacity lenType (options.endian.getD defaultEndian))
  | .borrowedCStr capacity =>
    if options.lenType.isSome ∨ options.endian.isSome ∨ options.tagField.isSome then
      .error "this zero option is not applicable to this string field"
    else if capacity = 0 then .error "nul-terminated string capacity must be nonzero"
    else .ok (.borrowedCStr capacity)
  | .borrowedU16CStr capacity =>
    if options.lenType.isSome ∨ options.endian.isSome ∨ options.tagField.isSome then
      .error "this zero option is not applicable to this string field"
    else if capacity = 0 then .error "nul-terminated string capacity must be nonzero"
    else .ok (.borrowedU16CStr capacity)
  | .path _ =>
    if options.capacity.isSome ∨ options.lenType.isSome ∨ options.endian.isSome then
      .error "this zero option is not applicable to a schema field"
    else .ok (.path options.tagField.isSome)
  | .optional inner =>
    if options.tagField.isSome then
      .error "tag_field cannot be applied to Option<T>; an externally tagged payload has no standalone optional sentinel"
    else if options.capacity.isSome ∨ options.lenType.isSome ∨ options.endian.isSome then
      .error "align is the only zero field option accepted by Option<T>"
    else .ok (.optional inner)
  | .bool => withoutOptions options .bool
  | .fixedBytes length => withoutOptions options (.fixedBytes length)
  | .array element length => withoutOptions options (.array element length)

/-- An array of bounded strings hands the field's options to its strings. -/
def applyFieldOptions (options : FieldOptions) (defaultEndian : WireEndian)
    (category : FieldCategory) : Except String FieldCategory :=
  match category.arrayLeaf with
  | some leaf =>
    if leaf.isString then
      (applyOptions options defaultEndian leaf).map fun leaf => category.setArrayLeaf leaf
    else applyOptions options defaultEndian category
  | none => applyOptions options defaultEndian category

/-- The category of a field declaration that is accepted. -/
def analyzeField (ty : SynType) (options : FieldOptions) (defaultEndian : WireEndian) :
    Except String FieldCategory := do
  let category ← classifyField ty options
  applyFieldOptions options defaultEndian category

/-! ### Steps of an analysis that succeeded -/

theorem except_bind_ok {ε α β : Type} {x : Except ε α} {f : α → Except ε β} {b : β}
    (h : x >>= f = .ok b) : ∃ a, x = .ok a ∧ f a = .ok b := by
  cases x with
  | error e => cases h
  | ok a => exact ⟨a, rfl, h⟩

theorem except_map_ok {ε α β : Type} {x : Except ε α} {f : α → β} {b : β}
    (h : x.map f = .ok b) : ∃ a, x = .ok a ∧ f a = b := by
  cases x with
  | error e => cases h
  | ok a => exact ⟨a, rfl, Except.ok.inj h⟩

section
variable {options : FieldOptions} {ty target : SynType} {c : FieldCategory}

theorem requiredCapacity_ok {n : ℕ} (h : requiredCapacity options = .ok n) :
    options.capacity = some n := by
  unfold requiredCapacity at h
  split at h
  · next hcap => rw [hcap, Except.ok.inj h]
  · cases h

/-- A borrowed string is one of the four forms, with the capacity and the length type declared. -/
theorem borrowedString_cases (h : borrowedString target options = .ok (some c)) :
    ∃ n, options.capacity = some n ∧
      (target.isSingleIdent "str" ∧ c = .borrowedStr n (lengthType options) .native ∨
        target.isSingleIdent "CStr" ∧ c = .borrowedCStr n ∨
        target.isSingleIdent "U16Str" ∧ c = .borrowedU16Str n (lengthType options) .native ∨
        target.isSingleIdent "U16CStr" ∧ c = .borrowedU16CStr n) := by
  unfold borrowedString at h
  split_ifs at h with hstr hc hu hw
  · obtain ⟨n, hn, hcat⟩ := except_map_ok h
    have hform := (Option.some.inj hcat).symm
    exact ⟨n, requiredCapacity_ok hn, Or.inl ⟨hstr, hform⟩⟩
  · obtain ⟨n, hn, hcat⟩ := except_map_ok h
    have hform := (Option.some.inj hcat).symm
    exact ⟨n, requiredCapacity_ok hn, Or.inr (Or.inl ⟨hc, hform⟩)⟩
  · obtain ⟨n, hn, hcat⟩ := except_map_ok h
    have hform := (Option.some.inj hcat).symm
    exact ⟨n, requiredCapacity_ok hn, Or.inr (Or.inr (Or.inl ⟨hu, hform⟩))⟩
  · obtain ⟨n, hn, hcat⟩ := except_map_ok h
    have hform := (Option.some.inj hcat).symm
    exact ⟨n, requiredCapacity_ok hn, Or.inr (Or.inr (Or.inr ⟨hw, hform⟩))⟩
  · cases h

/-- The options of a field go to the strings of an array, or to the field itself. -/
theorem applyFieldOptions_cases {endian : WireEndian} {out : FieldCategory}
    (h : applyFieldOptions options endian c = .ok out) :
    (c.arrayLeaf = some c.leaf ∧ c.leaf.isString = true ∧
      ∃ leaf, applyOptions options endian c.leaf = .ok leaf ∧ out = c.setArrayLeaf leaf) ∨
    ((c.leaf.isString = true → c.leaf = c) ∧ applyOptions options endian c = .ok out) := by
  unfold applyFieldOptions at h
  cases hleaf : c.arrayLeaf with
  | none =>
    have heq : c.leaf = c := by
      unfold FieldCategory.leaf
      rw [hleaf]
      rfl
    simp only [hleaf] at h
    exact Or.inr ⟨fun _ => heq, h⟩
  | some leaf =>
    have heq : c.leaf = leaf := by
      unfold FieldCategory.leaf
      rw [hleaf]
      rfl
    simp only [hleaf] at h
    rw [heq]
    split_ifs at h with hstring
    · obtain ⟨inner, hinner, hout⟩ := except_map_ok h
      exact Or.inl ⟨rfl, hstring, inner, hinner, hout.symm⟩
    · exact Or.inr ⟨fun hs => absurd hs hstring, h⟩

end

/-! ### The types that are accepted -/

/-- The types that are accepted as array elements, with their categories. -/
inductive ElementType (options : FieldOptions) : SynType → FieldCategory → Prop
  | primitive {ty} (p : Primitive) : ElementType options ty (.primitive p)
  | bool {ty} : ElementType options ty .bool
  | string {ty target c} (htarget : ty.borrowedTarget = some target)
    (hstring : borrowedString target options = .ok (some c)) : ElementType options ty c
  | path {ty} : ElementType options ty (.path false)
  | array {elem len c} (length : ArrayLength) (helement : ElementType options elem c) :
    ElementType options (.array elem len) (.array c length)

/-- The types that are accepted as fields. -/
inductive FieldType (options : FieldOptions) : SynType → FieldCategory → Prop
  | element {ty c} (helement : ElementType options ty c) : FieldType options ty c
  | fixedBytes {ty} (length : ArrayLength) : FieldType options ty (.fixedBytes length)
  | path {ty} (tagged : Bool) : FieldType options ty (.path tagged)
  | optional {ty} : FieldType options ty (.optional (.path false))
  | optionalArray {ty} (length : ArrayLength) :
    FieldType options ty (.optional (.array (.path false) length))

section
variable {options : FieldOptions} {ty target : SynType} {c : FieldCategory}

theorem classifyArrayElement_type (h : classifyArrayElement options ty = .ok c) :
    ElementType options ty c := by
  induction ty generalizing c with
  | array elem len ih =>
    unfold classifyArrayElement at h
    obtain ⟨length, -, h⟩ := except_bind_ok h
    obtain ⟨element, helement, h⟩ := except_bind_ok h
    obtain rfl := Except.ok.inj h
    exact .array length (ih helement)
  | _ =>
    unfold classifyArrayElement at h
    split at h
    · cases h
    · split at h
      · obtain rfl := Except.ok.inj h
        exact .primitive _
      · split at h
        · obtain rfl := Except.ok.inj h
          exact .bool
        · split at h
          · cases h
          · next category hcategory =>
            obtain rfl := Except.ok.inj h
            unfold borrowedStringOf at hcategory
            split at hcategory
            · next target htarget => exact .string htarget hcategory
            · cases hcategory
          · cases h <;> exact .path

theorem classifyOptionalInner_type (h : classifyOptionalInner target = .ok c) :
    FieldType options ty (.optional c) := by
  unfold classifyOptionalInner at h
  split at h
  · cases h
  · split at h
    · cases h
    · split at h
      · obtain ⟨length, -, h⟩ := except_bind_ok h
        split_ifs at h
        obtain rfl := Except.ok.inj h
        exact .optionalArray length
      · split at h
        · obtain rfl := Except.ok.inj h
          exact .optional
        · cases h

theorem classifyOptionField_type (h : classifyOptionField ty = .ok (some c)) :
    FieldType options ty c := by
  unfold classifyOptionField at h
  split at h
  · split at h
    · split at h
      · obtain ⟨inner, hinner, hcat⟩ := except_map_ok h
        obtain rfl := Option.some.inj hcat
        exact classifyOptionalInner_type hinner
      · cases h
    · split at h <;> cases h
    · cases h
  · cases h

theorem classifyBorrowed_type (htarget : ty.borrowedTarget = some target)
    (h : classifyBorrowed target options = .ok c) : FieldType options ty c := by
  obtain ⟨category, hstring, h⟩ := except_bind_ok h
  cases category with
  | some category =>
    obtain rfl := Except.ok.inj h
    exact .element (.string htarget hstring)
  | none =>
    dsimp only at h
    split at h
    · split at h
      · obtain ⟨length, -, rfl⟩ := except_map_ok h
        exact .fixedBytes length
      · cases h
    · cases h

/-- What the classification of a field lets through. -/
theorem classifyField_type (h : classifyField ty options = .ok c) : FieldType options ty c := by
  unfold classifyField at h
  split at h
  · obtain rfl := Except.ok.inj h
    exact .element (.primitive _)
  · split at h
    · obtain rfl := Except.ok.inj h
      exact .element .bool
    · split at h
      · next target htarget => exact classifyBorrowed_type htarget h
      · obtain ⟨category, hoption, h⟩ := except_bind_ok h
        cases category with
        | some category =>
          obtain rfl := Except.ok.inj h
          exact classifyOptionField_type hoption
        | none =>
          dsimp only at h
          split at h
          · obtain ⟨length, -, h⟩ := except_bind_ok h
            obtain ⟨element, helement, h⟩ := except_bind_ok h
            obtain rfl := Except.ok.inj h
            exact .element (.array length (classifyArrayElement_type helement))
          · obtain rfl := Except.ok.inj h
            exact .path _
          · obtain rfl := Except.ok.inj h
            exact .path _
          · cases h

end

end ZeroSchema
