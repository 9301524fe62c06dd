import ZeroSchema.Schema.Zero

/-! The wire layout of every category, the places of its parts, and the declarations the
macro and the compiler accept. -/
namespace ZeroSchema
open Storage

section
variable [Target]

/-- An optional alignment wrapper. -/
def alignedWire (align : Option Alignment) (L : Layout) : Layout :=
  match align with
  | none => L
  | some a => L.raise a.log

/-- The wrapped value, at `VALUE_OFFSET`. -/
def valuePlace (align : Option Alignment) (L : Layout) : Place (alignedWire align L) L :=
  match align with
  | none => Place.whole L
  | some a => Place.raised L a.log

end

namespace Category
variable [Target]

@[reducible] def wire : Category → Layout
  | primitive p _ => p.width.layout
  | bool => Layout.bytes 1
  | string s => s.wire
  | fixedBytes n => Layout.bytes n
  | scalarEnum ir | tagSibling ir => ir.repr.layout
  | struct ir fields =>
    alignedWire ir.align (Layout.record fun i => alignedWire (ir.fieldAlign i) (wire (fields i)))
  | tagged _ payload => Layout.union fun k => wire (payload k)
  | unit => Layout.bytes 1
  | array element n => (wire element).array n
  | optional align inner => alignedWire align (wire inner)

/-- What analysis, trait bounds and constant assertions let through. -/
def Accepted : Category → Prop
  | primitive _ _ | bool | scalarEnum _ | tagSibling _ | unit => True
  | string s => s.Accepted
  | fixedBytes n => n ≠ 0
  | struct ir fields =>
    (∀ i, Accepted (fields i) ∧ (fields i).isField = true ∧
      ((fields i).isOptional = true → ir.fieldAlign i = none)) ∧
    ir.Linked fields ∧ (struct ir fields).wire.size ≠ 0
  | tagged ir payload =>
    (∀ k, Accepted (payload k) ∧ (payload k).isPayload = true) ∧
    ir.arity ≠ 0 ∧ Function.Injective ir.tagKey
  | array element n => Accepted element ∧ element.isElement = true ∧ n ≠ 0
  | optional _ inner =>
    Accepted inner ∧ inner.isOptionalInner = true ∧ inner.zeroState = .zeroInvalid

instance decidableAccepted : (c : Category) → Decidable c.Accepted
  | primitive _ _ | bool | scalarEnum _ | tagSibling _ | unit => inferInstanceAs (Decidable True)
  | string s => inferInstanceAs (Decidable s.Accepted)
  | fixedBytes n => inferInstanceAs (Decidable (n ≠ 0))
  | struct ir fields =>
    have := fun i => decidableAccepted (fields i)
    inferInstanceAs (Decidable ((∀ i, Accepted (fields i) ∧ (fields i).isField = true ∧
      ((fields i).isOptional = true → ir.fieldAlign i = none)) ∧
      ir.Linked fields ∧ (struct ir fields).wire.size ≠ 0))
  | tagged ir payload =>
    have := fun k => decidableAccepted (payload k)
    inferInstanceAs (Decidable ((∀ k, Accepted (payload k) ∧ (payload k).isPayload = true) ∧
      ir.arity ≠ 0 ∧ Function.Injective ir.tagKey))
  | array element n =>
    have := decidableAccepted element
    inferInstanceAs (Decidable (Accepted element ∧ element.isElement = true ∧ n ≠ 0))
  | optional _ inner =>
    have := decidableAccepted inner
    inferInstanceAs (Decidable (Accepted inner ∧ inner.isOptionalInner = true ∧
      inner.zeroState = .zeroInvalid))

omit [Target]

/-- The tags of every payload declaration denote pairwise distinct values. Analysis compares
only the text of the tag paths. -/
def DistinctTags : Category → Prop
  | struct ir fields => ∀ i : Fin ir.arity, DistinctTags (fields i)
  | tagged ir payload => Function.Injective ir.tag ∧ ∀ k, DistinctTags (payload k)
  | array element _ => DistinctTags element
  | optional _ inner => DistinctTags inner
  | _ => True

instance decidableDistinctTags : (c : Category) → Decidable c.DistinctTags
  | struct ir fields =>
    have := fun i => decidableDistinctTags (fields i)
    inferInstanceAs (Decidable (∀ i : Fin ir.arity, DistinctTags (fields i)))
  | tagged ir payload =>
    have := fun k => decidableDistinctTags (payload k)
    inferInstanceAs (Decidable (Function.Injective ir.tag ∧ ∀ k, DistinctTags (payload k)))
  | array element _ => decidableDistinctTags element
  | optional _ inner => decidableDistinctTags inner
  | primitive _ _ | bool | string _ | fixedBytes _ | scalarEnum _ | tagSibling _ | unit =>
    inferInstanceAs (Decidable True)

end Category

/-- A root declaration: an accepted record or scalar enum. -/
structure Schema [Target] where
  category : Category
  path : category.isPath = true
  accepted : category.Accepted

open Category

section
variable [Target] (ir : StructIr) (fields : Fin ir.arity → Category)

/-- The offset the generated code selects a field's value at. -/
def fieldPlace (i : Fin ir.arity) : Place (struct ir fields).wire (fields i).wire :=
  ((valuePlace ir.align _).comp
    (Place.field (fun i => alignedWire (ir.fieldAlign i) (fields i).wire) i)).comp
      (valuePlace (ir.fieldAlign i) (fields i).wire)

theorem fieldPlace_disjoint {i j : Fin ir.arity} (h : i ≠ j) :
    Disjoint (fieldPlace ir fields i).region (fieldPlace ir fields j).region :=
  (Cell.comp_disjoint _ (Place.field_disjoint h)).mono
    (Cell.comp_region_subset _ _) (Cell.comp_region_subset _ _)

end

section
variable [Target]

def payloadPlace (ir : TaggedIr) (payload : Fin ir.arity → Category) (k : Fin ir.arity) :
    Place (tagged ir payload).wire (payload k).wire :=
  Place.member (fun k => (payload k).wire) k

def elementPlace (element : Category) {n : ℕ} (j : Fin n) :
    Place (array element n).wire element.wire := Place.element element.wire j

theorem elementPlace_disjoint (element : Category) {n : ℕ} {i j : Fin n} (h : i ≠ j) :
    Disjoint (elementPlace element i).region (elementPlace element j).region :=
  Place.element_disjoint h

/-- The value inside an optional's storage. -/
def presentPlace (align : Option Alignment) (inner : Category) :
    Place (optional align inner).wire inner.wire := valuePlace align inner.wire

/-- Every accepted declaration occupies at least one byte. -/
theorem wire_size_pos (c : Category) (h : c.Accepted) : 0 < c.wire.size := by
  have hwidth (w : Width) : 0 < w.bytes := by cases w <;> decide
  induction c with
  | primitive p e => exact hwidth p.width
  | bool | unit => exact one_pos
  | string s =>
    cases s with
    | str w e n =>
      exact (hwidth w.width).trans_le ((Nat.le_add_left _ _).trans (StringIr.lenPlace w _).bound)
    | cStr n => exact Nat.pos_of_ne_zero h
    | u16Str w e n =>
      exact (hwidth w.width).trans_le ((Nat.le_add_left _ _).trans (StringIr.lenPlace w _).bound)
    | u16CStr n => exact Nat.mul_pos (Nat.pos_of_ne_zero h) two_pos
  | fixedBytes n => exact Nat.pos_of_ne_zero h
  | scalarEnum ir => exact hwidth ir.repr.width
  | tagSibling ir => exact hwidth ir.repr.width
  | struct ir fields => exact Nat.pos_of_ne_zero h.2.2
  | tagged ir payload ih =>
    obtain ⟨hall, hne, -⟩ := h
    have k : Fin ir.arity := ⟨0, Nat.pos_of_ne_zero hne⟩
    exact (ih k (hall k).1).trans_le ((Nat.le_add_left _ _).trans (payloadPlace ir payload k).bound)
  | array element n ih => exact Nat.mul_pos (Nat.pos_of_ne_zero h.2.2) (ih h.1)
  | optional align inner ih =>
    exact (ih h.1).trans_le ((Nat.le_add_left _ _).trans (presentPlace align inner).bound)

end

section Samples

/-- `Kind { Empty = 0, Data = 1 }`. -/
def kind : EnumIr where
  logicalName := "Kind"
  repr := .u8
  endian := .native
  discriminants := [0, 1]
  nonempty := by decide
  nodup := by decide
  fits := by decide

/-- `NoZero { First = 1, Second = 2 }`. -/
def noZero : EnumIr where
  logicalName := "NoZero"
  repr := .u8
  endian := .native
  discriminants := [1, 2]
  nonempty := by decide
  nodup := by decide
  fits := by decide

abbrev emptyKind : kind.Value := ⟨0, by decide⟩
abbrev dataKind : kind.Value := ⟨1, by decide⟩
abbrev firstMode : noZero.Value := ⟨0, by decide⟩

/-- A record of one field. -/
def single (name field : String) (c : Category) : Category :=
  struct
    { logicalName := name
      align := none
      arity := 1
      fieldName := fun _ => field
      fieldAlign := fun _ => none
      tagField := fun _ => none }
    fun _ => c

abbrev onlyField : Fin 1 := 0

/-- Something for the field of a record of one field. -/
def theField {α : Fin 1 → Type} (x : α onlyField) : (i : Fin 1) → α i
  | 0 => x

/-- `Reading { value: u32 }`. -/
def reading : Category := single "Reading" "value" (primitive .u32 .native)

abbrev firstVariant : Fin 2 := ⟨0, Nat.zero_lt_two⟩
abbrev secondVariant : Fin 2 := ⟨1, Nat.one_lt_two⟩

/-- `Message { Empty, Data(Reading) }`. -/
def message : TaggedIr where
  logicalName := "Message"
  arity := 2
  variantName := fun | 0 => "Empty" | 1 => "Data"
  tagType := kind
  tagKey := fun | 0 => "Kind :: Empty" | 1 => "Kind :: Data"
  tag := fun | 0 => emptyKind | 1 => dataKind

def messagePayload : Fin 2 → Category
  | 0 => unit
  | 1 => reading

/-- `Envelope { kind: Kind, message: Message, mode: Option<NoZero> }`. -/
def envelopeIr : StructIr where
  logicalName := "Envelope"
  align := none
  arity := 3
  fieldName := fun | 0 => "kind" | 1 => "message" | 2 => "mode"
  fieldAlign := fun _ => none
  tagField := fun | 0 => none | 1 => some 0 | 2 => none

abbrev kindField : Fin 3 := 0
abbrev messageField : Fin 3 := 1
abbrev modeField : Fin 3 := 2

/-- Something for each field of an envelope. -/
def eachField {α : Fin 3 → Type} (kind : α kindField) (message : α messageField)
    (mode : α modeField) : (i : Fin 3) → α i
  | 0 => kind
  | 1 => message
  | 2 => mode

def envelopeFields : Fin 3 → Category
  | 0 => tagSibling kind
  | 1 => tagged message messagePayload
  | 2 => optional none (scalarEnum noZero)

def envelope : @Schema Target.lp64 :=
  letI := Target.lp64
  { category := struct envelopeIr envelopeFields
    path := rfl
    accepted := by decide }

/-- `Setting { mode: NoZero }`. -/
def setting : Category := single "Setting" "mode" (scalarEnum noZero)

/-- `Count { value: u8 }`. -/
def count : Category := single "Count" "value" (primitive .u8 .native)

/-- `Aliased { Data(Setting), Other(Count) }` where `NoZero::ALIAS` is a constant that is equal
to `NoZero::First`. -/
def aliased : TaggedIr where
  logicalName := "Aliased"
  arity := 2
  variantName := fun | 0 => "Data" | 1 => "Other"
  tagType := noZero
  tagKey := fun | 0 => "NoZero :: First" | 1 => "NoZero :: ALIAS"
  tag := fun _ => firstMode

def aliasedPayload : Fin 2 → Category
  | 0 => setting
  | 1 => count

/-- `Holder { kind: NoZero, payload: Aliased }`. -/
def holderIr : StructIr where
  logicalName := "Holder"
  align := none
  arity := 2
  fieldName := fun | 0 => "kind" | 1 => "payload"
  fieldAlign := fun _ => none
  tagField := fun | 0 => none | 1 => some firstVariant

/-- Something for each field of a holder. -/
def eitherField {α : Fin 2 → Type} (kind : α firstVariant) (payload : α secondVariant) :
    (i : Fin 2) → α i
  | 0 => kind
  | 1 => payload

def holderFields : Fin 2 → Category
  | 0 => tagSibling noZero
  | 1 => tagged aliased aliasedPayload

theorem tagEnum_holderPayload : (holderFields secondVariant).tagEnum = none := rfl

/-- The macro and the compiler accept two variants under one tag value. -/
def holder : @Schema Target.lp64 :=
  letI := Target.lp64
  { category := struct holderIr holderFields
    path := rfl
    accepted := by decide }

/-- `Moded { mode: Option<NoZero> }`. -/
def moded : Category := single "Moded" "mode" (optional none (scalarEnum noZero))

/-- `Blank { Nothing, Other(Moded) }` with two paths to one tag value again. -/
def blank : TaggedIr where
  logicalName := "Blank"
  arity := 2
  variantName := fun | 0 => "Nothing" | 1 => "Other"
  tagType := noZero
  tagKey := fun | 0 => "NoZero :: First" | 1 => "NoZero :: ALIAS"
  tag := fun _ => firstMode

def blankPayload : Fin 2 → Category
  | 0 => unit
  | 1 => moded

def carrierFields : Fin 2 → Category
  | 0 => tagSibling noZero
  | 1 => tagged blank blankPayload

/-- `Carrier { kind: NoZero, payload: Blank }`. -/
def carrier : @Schema Target.lp64 :=
  letI := Target.lp64
  { category := struct { holderIr with logicalName := "Carrier" } carrierFields
    path := rfl
    accepted := by decide }

/-- `Slotted { slot: Option<Holder> }`. -/
def slotted : @Schema Target.lp64 :=
  letI := Target.lp64
  { category := single "Slotted" "slot" (optional none holder.category)
    path := rfl
    accepted := by decide }

/-- `Marked { kind: NoZero, payload: Aliased, mark: u8 }`. -/
def markedIr : StructIr where
  logicalName := "Marked"
  align := none
  arity := 3
  fieldName := fun | 0 => "kind" | 1 => "payload" | 2 => "mark"
  fieldAlign := fun _ => none
  tagField := fun | 0 => none | 1 => some kindField | 2 => none

abbrev payloadField : Fin 3 := messageField
abbrev markField : Fin 3 := modeField

def markedFields : Fin 3 → Category
  | 0 => tagSibling noZero
  | 1 => tagged aliased aliasedPayload
  | 2 => primitive .u8 .native

def marked : @Schema Target.lp64 :=
  letI := Target.lp64
  { category := struct markedIr markedFields
    path := rfl
    accepted := by decide }

/-- `Mode { On = 256 }` in two bytes. -/
def wideMode : EnumIr where
  logicalName := "Mode"
  repr := .u16
  endian := .native
  discriminants := [256]
  nonempty := by decide
  nodup := by decide
  fits := by decide

/-- `Moded { mode: Option<self::Mode> }`. -/
def wideModed : @Schema Target.lp64 :=
  letI := Target.lp64
  { category := single "Moded" "mode" (optional none (scalarEnum wideMode))
    path := rfl
    accepted := by decide }

attribute [local instance] Target.lp64

/-- Storage that no envelope was ever in. -/
def staleEnvelope : Input envelope.category.wire where
  address := 64
  bytes := ⟨[7, 255, 255, 255, 9, 9, 9, 9, 3, 1, 2, 3], by decide⟩
  aligned := by decide
  fits := by decide

/-- An envelope with a reading. -/
def readingEnvelope : Input envelope.category.wire where
  address := 64
  bytes := ⟨[1, 0, 0, 0, 5, 0, 0, 0, 2, 0, 0, 0], by decide⟩
  aligned := by decide
  fits := by decide

/-- The envelope of a reading with padding that is not zero. -/
def paddedEnvelope : Input envelope.category.wire where
  address := 64
  bytes := ⟨[1, 9, 9, 9, 5, 0, 0, 0, 2, 9, 9, 9], by decide⟩
  aligned := by decide
  fits := by decide

/-- The envelope of a reading after it was emptied: the payload's bytes are stale. -/
def emptiedEnvelope : Input envelope.category.wire where
  address := 64
  bytes := ⟨[0, 0, 0, 0, 5, 0, 0, 0, 0, 0, 0, 0], by decide⟩
  aligned := by decide
  fits := by decide

/-- An empty envelope that no mode was set in, with unused bytes of all kinds. -/
def emptyEnvelope : Input envelope.category.wire where
  address := 128
  bytes := ⟨[0, 9, 9, 9, 9, 9, 9, 9, 0, 9, 9, 9], by decide⟩
  aligned := by decide
  fits := by decide

/-- A holder of the setting `Second`. -/
def settingHolder : Input holder.category.wire where
  address := 64
  bytes := ⟨[1, 2], by decide⟩
  aligned := by decide
  fits := by decide

/-- A zero is no setting. -/
def clearedHolder : Input holder.category.wire := { settingHolder with bytes := ⟨[1, 0], by decide⟩ }

/-- A carrier of nothing, and another one with an unused byte that is not zero. -/
def bareCarrier : Input carrier.category.wire where
  address := 64
  bytes := ⟨[1, 0], by decide⟩
  aligned := by decide
  fits := by decide

def usedCarrier : Input carrier.category.wire where
  address := 64
  bytes := ⟨[1, 1], by decide⟩
  aligned := by decide
  fits := by decide

/-- The setting `Second` and no mark. -/
def settingMarked : Input marked.category.wire where
  address := 64
  bytes := ⟨[1, 2, 0], by decide⟩
  aligned := by decide
  fits := by decide

/-- An empty slot. -/
def emptySlot : Input slotted.category.wire where
  address := 64
  bytes := Bytes.zero 2
  aligned := by decide
  fits := by decide

/-- A slot with a holder of the setting `Second`. -/
def settingSlot : Input slotted.category.wire where
  address := 64
  bytes := ⟨[1, 2], by decide⟩
  aligned := by decide
  fits := by decide

end Samples

end ZeroSchema
