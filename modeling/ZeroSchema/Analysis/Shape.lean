import ZeroSchema.Analysis.Names

/-! The categories that the analysis arrives at, and what of a category the names of a field
depend on: every name of a field is its Pascal name with an ending of its shape. -/
namespace ZeroSchema

/-! ### Analyzed categories -/

section Analyzed
variable {options : FieldOptions} {ty : SynType} {c : FieldCategory}

theorem borrowedString_isString {target : SynType}
    (h : borrowedString target options = .ok (some c)) : c.isString = true := by
  obtain ⟨n, -, hform⟩ := borrowedString_cases h
  rcases hform with ⟨-, rfl⟩ | ⟨-, rfl⟩ | ⟨-, rfl⟩ | ⟨-, rfl⟩
  · rfl
  · rfl
  · rfl
  · rfl

namespace FieldCategory

theorem isArrayElement_of_isString (h : c.isString = true) : c.isArrayElement = true := by
  cases c with
  | borrowedStr | borrowedCStr | borrowedU16Str | borrowedU16CStr => rfl
  | _ => cases h

theorem isAnalyzed_of_isString (h : c.isString = true) : c.isAnalyzed = true := by
  cases c with
  | borrowedStr | borrowedCStr | borrowedU16Str | borrowedU16CStr => rfl
  | _ => cases h

end FieldCategory

open FieldCategory

theorem ElementType.isArrayElement (h : ElementType options ty c) : c.isArrayElement = true := by
  induction h with
  | primitive | bool | path => rfl
  | string _ hstring => exact isArrayElement_of_isString (borrowedString_isString hstring)
  | array _ _ ih => exact ih

theorem ElementType.isAnalyzed (h : ElementType options ty c) : c.isAnalyzed = true := by
  cases h with
  | primitive | bool | path => rfl
  | string _ hstring => exact isAnalyzed_of_isString (borrowedString_isString hstring)
  | array _ helement => exact helement.isArrayElement

theorem classifyField_isAnalyzed (h : classifyField ty options = .ok c) : c.isAnalyzed = true := by
  cases classifyField_type h with
  | element helement => exact helement.isAnalyzed
  | _ => rfl

theorem isArrayElement_setArrayLeaf {leaf : FieldCategory} (hleaf : leaf.isString = true) :
    (c.setArrayLeaf leaf).isArrayElement = true := by
  induction c with
  | array element length ih => exact ih
  | _ => exact isArrayElement_of_isString hleaf

/-- Options change no category, but for the byte order of strings and what a path refers to. -/
theorem applyOptions_isAnalyzed {defaultEndian : WireEndian} {out : FieldCategory}
    (hc : c.isAnalyzed = true) (h : applyOptions options defaultEndian c = .ok out) :
    out.isAnalyzed = true ∧ out.isString = c.isString := by
  cases c with
  | optional inner =>
    rw [applyOptions] at h
    split_ifs at h
    obtain rfl := Except.ok.inj h
    exact ⟨hc, rfl⟩
  | bool | fixedBytes | array =>
    rw [applyOptions, withoutOptions] at h
    split_ifs at h
    obtain rfl := Except.ok.inj h
    exact ⟨hc, rfl⟩
  | _ =>
    rw [applyOptions] at h
    split_ifs at h
    obtain rfl := Except.ok.inj h
    exact ⟨rfl, rfl⟩

/-- The category of an accepted field declaration is an analyzed one. -/
theorem analyzeField_isAnalyzed {defaultEndian : WireEndian}
    (h : analyzeField ty options defaultEndian = .ok c) : c.isAnalyzed = true := by
  obtain ⟨category, hclassify, h⟩ := except_bind_ok h
  have hcategory := classifyField_isAnalyzed hclassify
  rcases applyFieldOptions_cases h with ⟨harray, hstring, leaf, hleaf, rfl⟩ | ⟨-, hout⟩
  · have hkept := applyOptions_isAnalyzed (isAnalyzed_of_isString hstring) hleaf
    cases category with
    | array element length => exact isArrayElement_setArrayLeaf (hkept.2.trans hstring)
    | _ => cases harray
  · exact (applyOptions_isAnalyzed hcategory hout).1

end Analyzed

/-! ### What the names of a field depend on -/

inductive LeafShape
  | primitive
  | bool
  | string
  | child
deriving DecidableEq

/-- What of a field's category its generated names depend on. -/
inductive Shape
  | scalar
  | bool
  | string
  | child
  | array (leaf : LeafShape) (nested : Bool)
  | optional
  | optionalArray
deriving DecidableEq

namespace FieldCategory

def leafShape : FieldCategory → LeafShape
  | bool => .bool
  | path _ => .child
  | borrowedStr _ _ _ | borrowedCStr _ | borrowedU16Str _ _ _ | borrowedU16CStr _ => .string
  | _ => .primitive

def shape : FieldCategory → Shape
  | bool => .bool
  | borrowedStr _ _ _ | borrowedCStr _ | borrowedU16Str _ _ _ | borrowedU16CStr _ => .string
  | path _ => .child
  | array element length =>
    .array (array element length).leaf.leafShape ((array element length).arrayDepth ≠ 1)
  | optional (array _ _) => .optionalArray
  | optional _ => .optional
  | primitive _ | fixedBytes _ => .scalar

end FieldCategory

namespace Shape

def elementWords : LeafShape → List String
  | .primitive | .bool => ["ArrayScalar"]
  | .string => ["ArrayString"]
  | .child => []

def levelWords (nested : Bool) : List String := if nested then ["ArrayLeaf", "Array"] else ["Array"]

/-- The words between the Pascal name of a field and the ending of its adapters. -/
def words : Shape → List String
  | scalar | bool | string => [""]
  | child => []
  | array leaf nested => elementWords leaf ++ levelWords nested
  | optional => ["Option"]
  | optionalArray => ["Option", "Array"]

/-- The words between the Pascal name and the ending of its element errors. -/
def errorWords : Shape → List String
  | array .bool _ => ["ArrayBool"]
  | array .child _ | optionalArray => ["ArrayChild"]
  | array .string _ => ["ArrayString"]
  | _ => []

/-- The words before the ending of the access error of a child. -/
def childWords : Shape → List String
  | child | optional => [""]
  | array .child _ | optionalArray => ["Array"]
  | _ => []

/-- The ending of the access error of a leaf that is checked, with its words. -/
def leafErrors : Shape → List String
  | bool => ["InvalidBool"]
  | string => ["String"]
  | array .bool _ => ["ArrayInvalidBool"]
  | array .string _ => ["ArrayString"]
  | _ => []

def itemEndings (s : Shape) : List String :=
  s.words.map (· ++ "Adapter") ++ s.errorWords.map (· ++ "Error")

def variantEndings (s : Shape) : List String := s.leafErrors ++ s.childWords.map (· ++ "Child")

/-- A field that is written through one adapter of its own. -/
def isPlain : Shape → Bool
  | scalar | bool | string => true
  | _ => false

/-- A schema, or an optional one. -/
def isChild : Shape → Bool
  | child | optional => true
  | _ => false

def isArrayed : Shape → Bool
  | array _ _ | optionalArray => true
  | _ => false

def isOptional : Shape → Bool
  | optional | optionalArray => true
  | _ => false

def all : List Shape :=
  [scalar, bool, string, child, optional, optionalArray] ++
    [LeafShape.primitive, .bool, .string, .child].flatMap fun leaf =>
      [array leaf false, array leaf true]

theorem mem_all (s : Shape) : s ∈ all := by
  cases s with
  | array leaf nested => cases leaf <;> cases nested <;> decide
  | _ => decide

/-- Where an item of one field ends in an item of another one. -/
theorem itemEndings_suffix : ∀ s ∈ all, ∀ t ∈ all, ∀ x ∈ s.itemEndings, ∀ y ∈ t.itemEndings,
    x.toList <:+ y.toList → (s.isPlain ∧ ∃ w ∈ t.words, w ++ x = y) ∨
      x = y ∧ (s.isArrayed ∧ t.isArrayed ∨ s.isOptional ∧ t.isOptional) := by
  decide +kernel

theorem variantEndings_suffix : ∀ s ∈ all, ∀ t ∈ all, ∀ x ∈ s.variantEndings,
    ∀ y ∈ t.variantEndings, x.toList <:+ y.toList →
      (s.isPlain ∧ ∃ w ∈ t.words, w ++ x = y) ∨ (s.isChild ∧ ∃ w ∈ t.childWords, w ++ x = y) ∨
      x = y ∧ s.isArrayed ∧ t.isArrayed := by
  decide +kernel

section
variable {s : Shape}

theorem word_mem {w : String} (h : w ∈ s.words) : w ++ "Adapter" ∈ s.itemEndings :=
  List.mem_append_left _ (List.mem_map.mpr ⟨w, h, rfl⟩)

theorem adapter_mem (h : s.isPlain = true) : "Adapter" ∈ s.itemEndings := by
  cases s with
  | scalar | bool | string => decide
  | _ => cases h

theorem arrayAdapter_mem (h : s.isArrayed = true) : "ArrayAdapter" ∈ s.itemEndings := by
  have hword : "Array" ∈ s.words := by
    cases s with
    | array leaf nested => cases nested <;> simp [words, levelWords]
    | optionalArray => decide
    | _ => cases h
  exact word_mem hword

theorem optionAdapter_mem (h : s.isOptional = true) : "OptionAdapter" ∈ s.itemEndings := by
  cases s with
  | optional | optionalArray => decide
  | _ => cases h

theorem childWord_mem {w : String} (h : w ∈ s.childWords) : w ++ "Child" ∈ s.variantEndings :=
  List.mem_append_right _ (List.mem_map.mpr ⟨w, h, rfl⟩)

theorem child_mem (h : s.isChild = true) : "Child" ∈ s.variantEndings := by
  cases s with
  | child | optional => decide
  | _ => cases h

end

end Shape

namespace FieldCategory

/-- The innermost elements that the analysis lets through. -/
def isLeaf : FieldCategory → Bool
  | primitive _ | bool | path _ => true
  | c => c.isString

theorem leaf_isLeaf {c : FieldCategory} (h : c.isArrayElement = true) : c.leaf.isLeaf = true := by
  induction c with
  | array element length ih => exact ih h
  | fixedBytes | optional => cases h
  | _ => rfl

end FieldCategory

section Field
variable [Casing] (field : FieldIr)

namespace FieldIr

theorem elementAdapters_eq {leaf : FieldCategory} (h : leaf.isLeaf = true) :
    field.elementAdapters leaf = (Shape.elementWords leaf.leafShape).map fun w =>
      field.pascalName ++ (w ++ "Adapter") := by
  cases leaf with
  | primitive | bool | path | borrowedStr | borrowedCStr | borrowedU16Str | borrowedU16CStr => rfl
  | _ => cases h

theorem arrayAdapters_eq {leaf : FieldCategory} (h : leaf.isLeaf = true) (depth : ℕ) :
    field.arrayAdapters leaf depth = (Shape.array leaf.leafShape (depth ≠ 1)).words.map fun w =>
      field.pascalName ++ (w ++ "Adapter") := by
  rw [arrayAdapters, elementAdapters_eq field h, Shape.words, List.map_append]
  congr 1
  by_cases hd : depth = 1
  · subst hd
    rfl
  · simp only [hd, if_false, ne_eq, not_false_eq_true, decide_true, Shape.levelWords, if_true]
    rfl

theorem leafErrorTypes_eq {leaf : FieldCategory} (h : leaf.isLeaf = true) (nested : Bool) :
    field.leafErrorTypes leaf = (Shape.array leaf.leafShape nested).errorWords.map fun w =>
      field.pascalName ++ (w ++ "Error") := by
  cases leaf with
  | primitive | bool | path | borrowedStr | borrowedCStr | borrowedU16Str | borrowedU16CStr => rfl
  | _ => cases h

theorem leafErrorVariants_eq {leaf : FieldCategory} (h : leaf.isLeaf = true) (nested : Bool) :
    field.leafErrorVariants leaf =
      (Shape.array leaf.leafShape nested).variantEndings.map (field.pascalName ++ ·) := by
  cases leaf with
  | primitive | bool | path | borrowedStr | borrowedCStr | borrowedU16Str | borrowedU16CStr => rfl
  | _ => cases h

/-- The items of a field are its Pascal name with the endings of its shape. -/
theorem items_eq : field.adapters ++ field.errorTypes =
    field.category.shape.itemEndings.map (field.pascalName ++ ·) := by
  have hanalyzed := field.analyzed
  have hitems (s : Shape) : s.itemEndings.map (field.pascalName ++ ·) =
      (s.words.map fun w => field.pascalName ++ (w ++ "Adapter")) ++
        s.errorWords.map fun w => field.pascalName ++ (w ++ "Error") := by
    rw [Shape.itemEndings, List.map_append, List.map_map, List.map_map]
    rfl
  rw [hitems]
  unfold adapters errorTypes
  cases hc : field.category with
  | array element length =>
    rw [hc] at hanalyzed
    have hleaf := FieldCategory.leaf_isLeaf hanalyzed
    exact congrArg₂ _ (arrayAdapters_eq field hleaf _) (leafErrorTypes_eq field hleaf _)
  | optional inner =>
    rw [hc] at hanalyzed
    cases inner with
    | path tagged => rfl
    | array element length =>
      cases element with
      | path tagged => rfl
      | _ => cases hanalyzed
    | _ => cases hanalyzed
  | _ => rfl

theorem errorVariants_eq : field.errorVariants =
    field.category.shape.variantEndings.map (field.pascalName ++ ·) := by
  have hanalyzed := field.analyzed
  unfold errorVariants
  cases hc : field.category with
  | array element length =>
    rw [hc] at hanalyzed
    exact leafErrorVariants_eq field (FieldCategory.leaf_isLeaf hanalyzed) _
  | optional inner =>
    rw [hc] at hanalyzed
    cases inner with
    | path tagged => rfl
    | array element length => rfl
    | _ => cases hanalyzed
  | _ => rfl

end FieldIr

end Field

end ZeroSchema
