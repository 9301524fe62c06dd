import ZeroSchema.StringField

/-! The analysed form of a schema. A field's category holds the declarations it refers to,
so one tree describes everything the macro generates for a root. -/
namespace ZeroSchema
open Storage

/-- The alignments that have a marker type: powers of two up to `2 ^ 29`. -/
structure Alignment where
  log : ℕ
  log_le : log ≤ 29
deriving DecidableEq

/-- A record declaration apart from its field categories. `tagField` links a tagged payload
to the sibling that stores its tag. -/
structure StructIr where
  logicalName : String
  align : Option Alignment
  arity : ℕ
  fieldName : Fin arity → String
  fieldAlign : Fin arity → Option Alignment
  tagField : Fin arity → Option (Fin arity)

/-- A tagged payload declaration apart from its variant payloads. `tagKey` is the text of a
variant's tag path and `tag` the value of the tag enum that the path denotes. -/
structure TaggedIr where
  logicalName : String
  arity : ℕ
  variantName : Fin arity → String
  tagType : EnumIr
  tagKey : Fin arity → String
  tag : Fin arity → tagType.Value

/-- What a field, an array element, an optional value or a variant payload stores. A scalar
enum field that is an external tag sibling is a `tagSibling`: it has no mutator and no preflight or
commit of its own. `unit` is the one-byte member of a unit variant. An optional's storage
includes the field's own alignment wrapper. -/
inductive Category
  | primitive (p : Primitive) (endian : WireEndian)
  | bool
  | string (s : StringIr)
  | fixedBytes (length : ℕ)
  | scalarEnum (ir : EnumIr)
  | tagSibling (ir : EnumIr)
  | struct (ir : StructIr) (fields : Fin ir.arity → Category)
  | tagged (ir : TaggedIr) (payload : Fin ir.arity → Category)
  | unit
  | array (element : Category) (length : ℕ)
  | optional (align : Option Alignment) (inner : Category)

namespace TaggedIr
variable (ir : TaggedIr)

/-- The first variant whose tag is the given value: the arm a `match` on the tag takes. -/
def select (tag : ℕ) : Option (Fin ir.arity) :=
  (List.finRange ir.arity).find? fun k => (ir.tag k : ℕ) = tag

theorem select_eq_none {tag : ℕ} : ir.select tag = none ↔ ∀ k, (ir.tag k : ℕ) ≠ tag := by
  simp [select]

variable {ir}

theorem tag_of_select {tag : ℕ} {k : Fin ir.arity} (h : ir.select tag = some k) :
    (ir.tag k : ℕ) = tag := by
  simpa using List.find?_some h

/-- When the tags denote distinct values, each variant is the one its own tag selects. -/
theorem select_tag (hdist : Function.Injective ir.tag) (k : Fin ir.arity) :
    ir.select (ir.tag k) = some k := by
  cases h : ir.select (ir.tag k) with
  | none => exact absurd rfl ((ir.select_eq_none).mp h k)
  | some j => rw [hdist (Fin.ext (tag_of_select h))]

end TaggedIr

namespace Category

/-- A reference to a schema with an access proof of its own: a record or a scalar enum. -/
def isPath : Category → Bool
  | scalarEnum _ | struct _ _ => true
  | _ => false

def isElement : Category → Bool
  | primitive _ _ | bool | string _ | scalarEnum _ | struct _ _ | array _ _ => true
  | _ => false

/-- An optional value is a path or one array of paths. -/
def isOptionalInner : Category → Bool
  | array element _ => element.isPath
  | c => c.isPath

def isPayload : Category → Bool
  | unit => true
  | c => c.isPath

def isField : Category → Bool
  | unit => false
  | _ => true

def isOptional : Category → Bool
  | optional _ _ => true
  | _ => false

/-- The enum a tag sibling stores, and the enum a tagged payload is selected by. -/
def tagEnum : Category → Option EnumIr
  | tagSibling ir => some ir
  | _ => none

def payloadEnum : Category → Option EnumIr
  | tagged ir _ => some ir.tagType
  | _ => none

theorem isPayload_of_isPath {c : Category} (h : c.isPath = true) : c.isPayload = true := by
  cases c <;> first | rfl | exact h

/-- Only a record field is selected by a sibling tag. -/
theorem payloadEnum_eq_none {c : Category}
    (h : c.isPayload = true ∨ c.isElement = true ∨ c.isOptionalInner = true) :
    c.payloadEnum = none := by
  cases c with
  | tagged ir payload => simp [isPayload, isElement, isOptionalInner, isPath] at h
  | _ => rfl

end Category

namespace StructIr

/-- Every tagged payload has a sibling that stores exactly its tag type, no two payloads
share one, and a tag sibling is some payload's. -/
structure Linked (ir : StructIr) (fields : Fin ir.arity → Category) : Prop where
  link : ∀ i t, ir.tagField i = some t →
    (fields i).payloadEnum.isSome ∧ (fields t).tagEnum = (fields i).payloadEnum
  linked : ∀ i, (fields i).payloadEnum.isSome → (ir.tagField i).isSome
  owner : ∀ t, (fields t).tagEnum.isSome → ∃ i, ir.tagField i = some t
  unique : ∀ i j t, ir.tagField i = some t → ir.tagField j = some t → i = j

theorem linked_iff {ir : StructIr} {fields : Fin ir.arity → Category} :
    ir.Linked fields ↔
      (∀ i t, ir.tagField i = some t →
        (fields i).payloadEnum.isSome ∧ (fields t).tagEnum = (fields i).payloadEnum) ∧
      (∀ i, (fields i).payloadEnum.isSome → (ir.tagField i).isSome) ∧
      (∀ t, (fields t).tagEnum.isSome → ∃ i, ir.tagField i = some t) ∧
      ∀ i j t, ir.tagField i = some t → ir.tagField j = some t → i = j :=
  ⟨fun h => ⟨h.link, h.linked, h.owner, h.unique⟩, fun h => ⟨h.1, h.2.1, h.2.2.1, h.2.2.2⟩⟩

instance (ir : StructIr) (fields : Fin ir.arity → Category) : Decidable (ir.Linked fields) :=
  decidable_of_iff _ linked_iff.symm

open Category in
/-- The two ends of a link. -/
theorem Linked.ends {ir : StructIr} {fields : Fin ir.arity → Category} (h : ir.Linked fields)
    {i t : Fin ir.arity} (ht : ir.tagField i = some t) :
    ∃ (tir : TaggedIr) (payload : Fin tir.arity → Category),
      fields i = tagged tir payload ∧ fields t = tagSibling tir.tagType := by
  obtain ⟨hsome, heq⟩ := h.link i t ht
  cases hi : fields i with
  | tagged tir payload =>
    rw [hi] at heq
    cases hf : fields t with
    | tagSibling e =>
      rw [hf] at heq
      exact ⟨tir, payload, rfl, congrArg tagSibling (Option.some.inj heq)⟩
    | _ => rw [hf] at heq; cases heq
  | _ => rw [hi] at hsome; cases hsome

/-- The payloads are the fields that have a sibling. -/
theorem Linked.tagField_eq_none {ir : StructIr} {fields : Fin ir.arity → Category}
    (h : ir.Linked fields) {i : Fin ir.arity} (hi : (fields i).payloadEnum = none) :
    ir.tagField i = none := by
  cases ht : ir.tagField i with
  | none => rfl
  | some t =>
    have hsome := (h.link i t ht).1
    rw [hi] at hsome
    cases hsome

theorem Linked.payloadEnum_eq_none {ir : StructIr} {fields : Fin ir.arity → Category}
    (h : ir.Linked fields) {i : Fin ir.arity} (ht : ir.tagField i = none) :
    (fields i).payloadEnum = none := by
  cases hp : (fields i).payloadEnum with
  | none => rfl
  | some e =>
    have hsome := h.linked i (by rw [hp]; rfl)
    rw [ht] at hsome
    cases hsome

/-- A payload is not a tag sibling, and a tag sibling is not selected by a tag itself. -/
theorem Linked.tagEnum_eq_none {ir : StructIr} {fields : Fin ir.arity → Category}
    (h : ir.Linked fields) {i t : Fin ir.arity} (ht : ir.tagField i = some t) :
    (fields i).tagEnum = none := by
  obtain ⟨tir, payload, hp, -⟩ := h.ends ht
  rw [hp]
  rfl

theorem Linked.tagField_sibling {ir : StructIr} {fields : Fin ir.arity → Category}
    (h : ir.Linked fields) {t : Fin ir.arity} (ht : (fields t).tagEnum.isSome) :
    ir.tagField t = none := by
  cases hs : ir.tagField t with
  | none => rfl
  | some s =>
    rw [h.tagEnum_eq_none hs] at ht
    cases ht

theorem Linked.tagEnum_isSome {ir : StructIr} {fields : Fin ir.arity → Category}
    (h : ir.Linked fields) {i t : Fin ir.arity} (ht : ir.tagField i = some t) :
    (fields t).tagEnum.isSome := by
  obtain ⟨tir, payload, -, htag⟩ := h.ends ht
  rw [htag]
  rfl

end StructIr

end ZeroSchema
