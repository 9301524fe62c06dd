import ZeroSchema.Schema.Fault

/-! Reading a proved wire. A getter proves its child again before it makes the child's
capability and calls a failure unreachable; so does every step of `copy_into`. -/
namespace ZeroSchema
open Storage Control

namespace Category
variable [Target]

section Record
variable (ir : StructIr) (fields : Fin ir.arity → Category)
  (materialize : (i : Fin ir.arity) → ℕ → Input (fields i).wire → Option (fields i).Logical)
  (input : Input (struct ir fields).wire)

/-- The value of one field: a payload is read under its sibling tag. -/
def materializeField (i : Fin ir.arity) : Option (fields i).Logical := do
  let tag ← ir.siblingTag
    (fun t => (provedTag ir fields (fun i => (fields i).prove) input t).value?) i
  let child ← (selectField ir fields input i).toOption
  let _ ← ((fields i).prove (ir.context i) tag child).value?
  materialize i tag child

end Record

/-- The materialized value of a proved wire. -/
def materialize : (c : Category) → ℕ → Input c.wire → Option c.Logical
  | primitive p e, _, input => some (p.get e input.bytes)
  | bool, _, input => BoolWire.decode (BoolWire.raw input.bytes)
  | string s, _, input => (s.read .root input).value?
  | fixedBytes _, _, input => some input.bytes
  | scalarEnum ir, _, input | tagSibling ir, _, input => ir.load input.bytes
  | struct ir fields, _, input =>
    collect (materializeField ir fields (fun i => materialize (fields i)) input)
  | tagged ir payload, tag, input =>
    match ir.select tag with
    | none => none
    | some k => do
      let child ← (input.subrange (payload k).wire 0).toOption
      let _ ← (prove (payload k) .root 0 child).value?
      let value ← materialize (payload k) 0 child
      some ⟨k, value⟩
  | unit, _, _ => some ()
  | array element n, _, input =>
    collect fun j : Fin n => do
      let child ← (selectElement element n input j).toOption
      let _ ← (prove element .root 0 child).value?
      materialize element 0 child
  | optional align inner, _, input =>
    if input.isAllZero then some none
    else do
      let value ← (input.subrange inner.wire (presentPlace align inner).offset).toOption
      let _ ← (prove inner .root 0 value).value?
      let value ← materialize inner 0 value
      some (some value)

/-- A value that the bytes represent is what materializing them returns. -/
theorem materialize_eq (c : Category) {tag : ℕ} (input : Input c.wire) {v : c.Logical}
    (h : c.Represents tag input.bytes v) : c.materialize tag input = some v := by
  have reprove (c : Category) (ctx : Context) {tag : ℕ} (input : Input c.wire) {v : c.Logical}
      (h : c.Represents tag input.bytes v) : (c.prove ctx tag input).value? = some () :=
    Outcome.value?_eq_some.mpr ((prove_eq_ok c ctx tag input).mpr h.valid)
  induction c generalizing tag with
  | primitive p e => exact congrArg some h
  | bool => exact h
  | string s =>
    rw [materialize, Outcome.value?_eq_some, s.read_eq, Context.onProof_eq_ok]
    exact h
  | fixedBytes n => exact congrArg some h
  | scalarEnum ir => exact h
  | tagSibling ir => exact h
  | struct ir fields ih =>
    rw [materialize, collect_eq_some]
    intro i
    obtain ⟨tag, htag, hv⟩ := h i
    have hchild := ih i (input.child (fieldPlace ir fields i)) hv
    have hload (t : Fin ir.arity) :
        (provedTag ir fields (fun i => (fields i).prove) input t).value? = _ :=
      value?_provedTag (prove_eq_ok (fields t))
    rw [materializeField, funext hload]
    change (tagAt ir fields input.bytes i >>= _) = _
    simp only [htag, selectField_eq, Except.toOption, Option.bind_eq_bind, Option.bind_some,
      reprove (fields i) _ (input.child (fieldPlace ir fields i)) hv, hchild]
  | tagged ir payload ih =>
    obtain ⟨k, v⟩ := v
    obtain ⟨hk, hv⟩ := h
    have hsel := input.subrange_place (payloadPlace ir payload k)
    change input.subrange (payload k).wire 0 = _ at hsel
    have hchild := ih k (input.child (payloadPlace ir payload k)) hv
    rw [materialize]
    simp only [hk, hsel, Except.toOption, Option.bind_eq_bind, Option.bind_some,
      reprove (payload k) .root (input.child (payloadPlace ir payload k)) hv, hchild]
  | unit => rfl
  | array element n ih =>
    rw [materialize, collect_eq_some]
    intro j
    have hv := h j
    have hchild := ih (input.child (elementPlace element j)) hv
    simp only [selectElement_eq, Except.toOption, Option.bind_eq_bind, Option.bind_some,
      reprove element .root (input.child (elementPlace element j)) hv, hchild]
  | optional align inner ih =>
    cases v with
    | none => exact if_pos (Input.isAllZero_eq_true.mpr h)
    | some v =>
      obtain ⟨hz, hv⟩ := h
      have hchild := ih (input.child (presentPlace align inner)) hv
      rw [materialize, if_neg (mt Input.isAllZero_eq_true.mp hz), Input.subrange_place]
      simp only [Except.toOption, Option.bind_eq_bind, Option.bind_some,
        reprove inner .root (input.child (presentPlace align inner)) hv, hchild]

end Category

end ZeroSchema
