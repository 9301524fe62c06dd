import ZeroSchema.Schema.Meaning

/-! The generated proof walk: fields in declaration order, array elements by increasing
index, a tag before the payload it selects. It accepts exactly the valid bytes. -/
namespace ZeroSchema
open Storage Control

/-- A field of the record reports its errors under its own name. -/
def StructIr.context (ir : StructIr) (i : Fin ir.arity) : Context :=
  .ofField ir.logicalName (ir.fieldName i)

namespace Category

/-- Declarations with an error type of their own, which the enclosing schema wraps. -/
def ownsErrors : Category → Bool
  | scalarEnum _ | tagSibling _ | struct _ _ | tagged _ _ => true
  | _ => false

def logicalName : Category → String
  | scalarEnum ir | tagSibling ir => ir.logicalName
  | struct ir _ => ir.logicalName
  | tagged ir _ => ir.logicalName
  | _ => ""

def wrap {α : Type} (c : Category) (ctx : Context) (x : Outcome SchemaError α) :
    Outcome SchemaError α :=
  if c.ownsErrors then x.mapErr ctx.below else x

@[simp] theorem wrap_eq_ok {α : Type} {c : Category} {ctx : Context}
    {x : Outcome SchemaError α} {a : α} : c.wrap ctx x = .ok a ↔ x = .ok a := by
  unfold wrap
  split_ifs <;> simp

variable [Target]

/-- A selection that the payload or the enum itself reports. -/
def onLayout {α : Type} (c : Category) (x : Except LayoutError α) : Outcome SchemaError α :=
  (Outcome.ofExcept x).mapErr (.layout c.logicalName)

section Record
variable (ir : StructIr) (fields : Fin ir.arity → Category)
  (prove : (i : Fin ir.arity) → Context → ℕ → Input (fields i).wire → Outcome SchemaError Unit)
  (input : Input (struct ir fields).wire)

/-- Selects a field in the record. -/
def selectField (i : Fin ir.arity) : Except LayoutError (Input (fields i).wire) :=
  input.subrange (fields i).wire (fieldPlace ir fields i).offset

/-- Proves a sibling tag and reads its value. -/
def provedTag (t : Fin ir.arity) : Outcome SchemaError ℕ := do
  let selected ← (ir.context t).onLayout (selectField ir fields input t)
  (fields t).wrap (ir.context t) (prove t (ir.context t) 0 selected)
  .expect ((fields t).loadTag selected.bytes)

def proofField (i : Fin ir.arity) : Outcome SchemaError Unit :=
  match ir.tagField i with
  | none => do
    let selected ← (ir.context i).onLayout (selectField ir fields input i)
    (fields i).wrap (ir.context i) (prove i (ir.context i) 0 selected)
  | some t => do
    let tag ← provedTag ir fields prove input t
    (fields i).wrap (ir.context i) do
      let payload ← (fields i).onLayout (selectField ir fields input i)
      prove i (ir.context i) tag payload

end Record

/-- Selects an element, after checking its offset for overflow. -/
def selectElement (element : Category) (n : ℕ) (input : Input (array element n).wire) (j : ℕ) :
    Except LayoutError (Input element.wire) := do
  let offset ← checkedElementOffset j element.wire.size
  input.subrange element.wire offset

/-- The access proof. A unit variant's payload is `unit`, where nothing is left to prove. -/
def prove : (c : Category) → Context → ℕ → Input c.wire → Outcome SchemaError Unit
  | primitive _ _, _, _, _ | fixedBytes _, _, _, _ | unit, _, _, _ => .ok ()
  | bool, ctx, _, input =>
    match BoolWire.decode (BoolWire.raw input.bytes) with
    | some _ => .ok ()
    | none => .err (ctx.leaf .invalidBool)
  | string s, ctx, _, input => s.read ctx input >>= fun _ => .ok ()
  | scalarEnum ir, _, _, input | tagSibling ir, _, _, input =>
    match ir.load input.bytes with
    | some _ => .ok ()
    | none => .err (.leaf ir.logicalName [] .unknownEnumValue)
  | struct ir fields, _, _, input =>
    forEach ir.arity (proofField ir fields (fun i => prove (fields i)) input)
  | tagged ir payload, _, tag, input =>
    match ir.select tag with
    | none => .err (.leaf ir.logicalName [] .unknownUnionTag)
    | some k => do
      let child ← (tagged ir payload).onLayout (input.subrange (payload k).wire 0)
      (prove (payload k) .root 0 child).mapErr (.below ir.logicalName [.variant (ir.variantName k)])
  | array element n, ctx, _, input =>
    forEach n fun j => do
      let child ← (ctx.element n j).onLayout (selectElement element n input j)
      element.wrap (ctx.element n j) (prove element (ctx.element n j) 0 child)
  | optional align inner, ctx, _, input =>
    if input.isAllZero then .ok ()
    else do
      let value ← ctx.onLayout (input.subrange inner.wire (presentPlace align inner).offset)
      inner.wrap ctx (prove inner ctx 0 value)

section
variable {W F : Layout}

theorem onLayout_subrange (c : Category) (input : Input W) (p : Place W F) :
    c.onLayout (input.subrange F p.offset) = .ok (input.child p) := by
  rw [Input.subrange_place]
  rfl

/-- The byte offset of an element never overflows inside a checked array. -/
theorem checkedElementOffset_eq {element : Category} {n : ℕ}
    (input : Input (array element n).wire) (j : Fin n) :
    checkedElementOffset j element.wire.size = .ok (elementPlace element j).offset := by
  have hb := (elementPlace element j).bound
  have hf := input.fits
  have hu := isizeMax_le_usizeMax
  have hoffset : (elementPlace element j).offset = j * element.wire.size := rfl
  rw [hoffset] at hb
  rw [checkedElementOffset, if_neg (by omega)]
  rfl

theorem selectElement_eq (element : Category) {n : ℕ} (input : Input (array element n).wire)
    (j : Fin n) : selectElement element n input j = .ok (input.child (elementPlace element j)) := by
  rw [selectElement, checkedElementOffset_eq input j]
  exact input.subrange_place (elementPlace element j)

end

section Record
variable {ir : StructIr} {fields : Fin ir.arity → Category}
  {child : (i : Fin ir.arity) → Context → ℕ → Input (fields i).wire → Outcome SchemaError Unit}
  {input : Input (struct ir fields).wire}

theorem selectField_eq (i : Fin ir.arity) :
    selectField ir fields input i = .ok (input.child (fieldPlace ir fields i)) :=
  input.subrange_place (fieldPlace ir fields i)

theorem provedTag_eq_ok {t : Fin ir.arity} {tag : ℕ}
    (hchild : ∀ ctx tag input, child t ctx tag input = .ok () ↔ (fields t).Valid tag input.bytes) :
    provedTag ir fields child input t = .ok tag ↔
      (fields t).loadTag ((fieldPlace ir fields t).get input.bytes) = some tag := by
  rw [provedTag, selectField_eq, Outcome.bind_eq_ok]
  constructor
  · rintro ⟨selected, hsel, h⟩
    obtain rfl := Outcome.ok.inj hsel
    obtain ⟨-, -, hload⟩ := Outcome.bind_eq_ok.mp h
    exact Outcome.expect_eq_ok.mp hload
  · intro h
    refine ⟨_, rfl, Outcome.bind_eq_ok.mpr ⟨(), ?_, Outcome.expect_eq_ok.mpr h⟩⟩
    rw [wrap_eq_ok, hchild]
    exact valid_of_loadTag h

theorem value?_provedTag {t : Fin ir.arity}
    (hchild : ∀ ctx tag input, child t ctx tag input = .ok () ↔ (fields t).Valid tag input.bytes) :
    (provedTag ir fields child input t).value? =
      (fields t).loadTag ((fieldPlace ir fields t).get input.bytes) :=
  Option.ext fun _ => Outcome.value?_eq_some.trans (provedTag_eq_ok hchild)

theorem proofField_eq_ok {i : Fin ir.arity}
    (hchild : ∀ i ctx tag input,
      child i ctx tag input = .ok () ↔ (fields i).Valid tag input.bytes) :
    proofField ir fields child input i = .ok () ↔ ∃ tag, tagAt ir fields input.bytes i = some tag ∧
      (fields i).Valid tag ((fieldPlace ir fields i).get input.bytes) := by
  simp only [proofField, tagAt, StructIr.siblingTag]
  cases ir.tagField i with
  | none =>
    simp only [selectField_eq, Option.some.injEq, exists_eq_left']
    change (fields i).wrap _ _ = _ ↔ _
    rw [wrap_eq_ok, hchild]
    rfl
  | some t =>
    simp only [selectField_eq, Outcome.bind_eq_ok, wrap_eq_ok, provedTag_eq_ok (hchild t)]
    refine exists_congr fun tag => and_congr_right fun _ => ?_
    constructor
    · rintro ⟨payload, hsel, h⟩
      obtain rfl := Outcome.ok.inj hsel
      exact (hchild i _ _ _).mp h
    · intro h
      exact ⟨_, rfl, (hchild i _ _ _).mpr h⟩

end Record

/-- The proof accepts exactly the valid bytes. -/
theorem prove_eq_ok (c : Category) (ctx : Context) (tag : ℕ) (input : Input c.wire) :
    c.prove ctx tag input = .ok () ↔ c.Valid tag input.bytes := by
  induction c generalizing ctx tag with
  | primitive | fixedBytes | unit => exact ⟨fun _ => trivial, fun _ => rfl⟩
  | bool =>
    rw [Valid, ← BoolWire.isSome_decode, prove]
    cases BoolWire.decode (BoolWire.raw input.bytes) <;> simp
  | string s =>
    rw [prove, Outcome.bind_eq_ok]
    simp only [and_true, StringIr.read_eq, Context.onProof_eq_ok]
    exact (s.valid_iff input).symm
  | scalarEnum ir =>
    rw [Valid, ← EnumIr.isSome_load, prove]
    cases ir.load input.bytes <;> simp
  | tagSibling ir =>
    rw [Valid, ← EnumIr.isSome_load, prove]
    cases ir.load input.bytes <;> simp
  | struct ir fields ih =>
    rw [prove, forEach_eq_ok]
    exact forall_congr' fun i => proofField_eq_ok fun i ctx tag input => ih i ctx tag input
  | tagged ir payload ih =>
    rw [prove, Valid]
    cases ir.select tag with
    | none => simp
    | some k =>
      have hsel := (tagged ir payload).onLayout_subrange input (payloadPlace ir payload k)
      change (tagged ir payload).onLayout (input.subrange (payload k).wire 0) = _ at hsel
      simp only [hsel, Outcome.ok_bind, Outcome.mapErr_eq_ok, ih, Option.some.injEq,
        exists_eq_left']
      rfl
  | array element n ih =>
    rw [prove, forEach_eq_ok]
    refine forall_congr' fun j => ?_
    rw [selectElement_eq]
    change element.wrap _ _ = _ ↔ _
    rw [wrap_eq_ok, ih]
    rfl
  | optional align inner ih =>
    rw [prove, Valid]
    split_ifs with hz
    · exact ⟨fun _ => Or.inl (Input.isAllZero_eq_true.mp hz), fun _ => rfl⟩
    · rw [Context.onLayout_subrange, Outcome.ok_bind, wrap_eq_ok, ih,
        or_iff_right (mt Input.isAllZero_eq_true.mpr hz)]
      rfl

end Category

end ZeroSchema
