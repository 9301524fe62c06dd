import ZeroSchema.Mutation.Record
import ZeroSchema.Schema.ZeroWire

/-! The logical engine: preflight and commit of a complete logical value. With
`initializing` false the destination is valid and a payload of the stored variant is
updated in place; with `initializing` true nothing is assumed of the destination. -/
namespace ZeroSchema
open Storage Control

/-- A byte array accepts a source of exactly its own length. -/
def FixedBytes.preflight (n : ℕ) (ctx : Context) (source : List UInt8) : Outcome SchemaError Unit :=
  if source.length = n then .ok () else .err (ctx.leaf .arrayLengthMismatch)

namespace Category

/-- The values a destination accepts, whatever it holds: the strings have room and a stored
tag is the one of its payload. -/
def Fits : (c : Category) → c.Logical → Prop
  | string s, v => s.Fits v
  | struct ir fields, v =>
    (∀ i t, ir.tagField i = some t → (fields t).storedTag (v t) = (fields i).logicalTag (v i)) ∧
      ∀ i, Fits (fields i) (v i)
  | tagged _ payload, ⟨k, v⟩ => Fits (payload k) v
  | array element n, v => ∀ j : Fin n, Fits element (v j)
  | optional _ _, none => True
  | optional _ inner, some v => Fits inner v
  | primitive _ _, _ | bool, _ | fixedBytes _, _ | scalarEnum _, _ | tagSibling _, _ | unit, _ =>
    True

variable [Target]

section Record
variable (ir : StructIr) (fields : Fin ir.arity → Category)

def preflightLogicalField
    (preflight : (i : Fin ir.arity) → Context → ℕ → Input (fields i).wire → (fields i).Logical →
      Outcome SchemaError Unit)
    (initializing : Bool) (input : Input (struct ir fields).wire) (v : (struct ir fields).Logical)
    (i : Fin ir.arity) : Outcome SchemaError Unit :=
  let ctx := ir.context i
  if (fields i).tagEnum.isSome then .ok ()
  else
    match ir.tagField i with
    | none => do
      let selected ← ctx.onLayout (selectField ir fields input i)
      (fields i).childFailure ctx .capacityExceeded (preflight i ctx 0 selected (v i))
    | some t =>
      if (fields t).storedTag (v t) ≠ (fields i).logicalTag (v i) then .err (ctx.leaf .tagMismatch)
      else do
        let current ← provedCurrent ir fields initializing input t
        let payload ← ctx.onLayout (selectField ir fields input i)
        (fields i).childFailure ctx .capacityExceeded (preflight i ctx current payload (v i))

end Record

/-- Checks a value against the destination. A payload is checked for the variant that it is:
`tag` is the current one, which an initializing check does not look at. -/
def preflightLogical : (c : Category) → Bool → Context → ℕ → Input c.wire → c.Logical →
    Outcome SchemaError Unit
  | primitive _ _, _, _, _, _, _ | bool, _, _, _, _, _ | scalarEnum _, _, _, _, _, _
  | tagSibling _, _, _, _, _, _ | unit, _, _, _, _, _ => .ok ()
  | string s, _, ctx, _, input, v => s.preflight ctx input v
  | fixedBytes n, _, ctx, _, _, v => FixedBytes.preflight n ctx v.toList
  | struct ir fields, initializing, _, _, input, v =>
    forEach ir.arity (preflightLogicalField ir fields
      (fun i => preflightLogical (fields i) initializing) initializing input v)
  | tagged ir payload, initializing, _, tag, input, ⟨k, v⟩ => do
    let child ← (tagged ir payload).onLayout (input.subrange (payload k).wire 0)
    (preflightLogical (payload k) (initializing || decide (tag ≠ ir.tag k)) .root 0 child v).mapErr
      fun _ => .layout ir.logicalName .offsetOverflow
  | array element n, initializing, ctx, _, input, v =>
    forEach n fun j => do
      let child ← (ctx.element n j).onLayout (selectElement element n input j)
      element.childFailure (ctx.element n j) .capacityExceeded
        (preflightLogical element initializing (ctx.element n j) 0 child (v j))
  | optional _ _, _, _, _, _, none => .ok ()
  | optional align inner, _, ctx, _, input, some v => do
    let value ← ctx.onLayout (input.subrange inner.wire (presentPlace align inner).offset)
    inner.childFailure ctx .capacityExceeded (preflightLogical inner true ctx 0 value v)

/-- Writes a preflighted value; `none` is a branch declared unreachable. -/
def commitLogical : (c : Category) → c.Logical → Bool → Input c.wire → Option (Input c.wire)
  | primitive p e, v, _, input => some (input.overwrite (p.storePreflighted e v))
  | bool, v, _, input => some (input.overwrite (BoolWire.storePreflighted v))
  | string s, v, _, input => s.commit input v
  | fixedBytes _, v, _, input => some (input.overwrite v)
  | scalarEnum ir, v, _, input | tagSibling ir, v, _, input => some (input.overwrite (ir.commit v))
  | struct ir fields, v, initializing, input =>
    foldEach ir.arity (fun input i =>
      commitField ir fields initializing i ((fields i).logicalTag (v i))
        (commitLogical (fields i) (v i)) input) input
  | tagged _ payload, ⟨k, v⟩, initializing, input =>
    input.subrangeMut (payload k).wire 0 (commitLogical (payload k) v initializing)
  | unit, _, _, input => some input
  | array element n, v, initializing, input =>
    foldEach n (fun input j =>
      commitElement element n j (commitLogical element (v j) initializing) input) input
  | optional _ _, none, _, input => some input.clearAll
  | optional align inner, some v, _, input =>
    input.subrangeMut inner.wire (presentPlace align inner).offset (commitLogical inner v true)

theorem storedTag_of_represents {c : Category} {tag current : ℕ} {b : Bytes c.wire.size}
    {v : c.Logical} (hload : c.loadTag b = some tag) (h : c.Represents current b v) :
    c.storedTag v = tag := by
  cases c with
  | tagSibling ir =>
    obtain ⟨u, hu, rfl⟩ := Option.map_eq_some_iff.mp hload
    exact congrArg Fin.val (Option.some.inj (h.symm.trans hu))
  | _ => cases hload

theorem logicalTag_of_represents {c : Category} {tag : ℕ} {b : Bytes c.wire.size} {v : c.Logical}
    (hc : c.payloadEnum.isSome) (h : c.Represents tag b v) : c.logicalTag v = tag := by
  cases c with
  | tagged ir payload => exact TaggedIr.tag_of_select h.1
  | _ => cases hc

/-- A value that was read is a value that can be written. -/
theorem fits_of_represents (c : Category) (h : c.Accepted) {tag : ℕ} (input : Input c.wire)
    {v : c.Logical} (hv : c.Represents tag input.bytes v) : c.Fits v := by
  induction c generalizing tag with
  | primitive | bool | fixedBytes | scalarEnum | tagSibling | unit => trivial
  | string s => exact StringIr.fits_of_decode hv
  | struct ir fields ih =>
    refine ⟨fun i t ht => ?_, fun i => ?_⟩
    · obtain ⟨tag, htag, hi⟩ := hv i
      obtain ⟨_, _, hsibling⟩ := hv t
      rw [tagAt_of_link ht] at htag
      rw [storedTag_of_represents htag hsibling,
        logicalTag_of_represents (h.2.1.link i t ht).1 hi]
    · obtain ⟨_, _, hi⟩ := hv i
      exact ih i (h.1 i).1 (input.child (fieldPlace ir fields i)) hi
  | tagged ir payload ih =>
    exact ih v.1 (h.1 v.1).1 (input.child (payloadPlace ir payload v.1)) hv.2
  | array element n ih =>
    exact fun j => ih h.1 (input.child (elementPlace element j)) (hv j)
  | optional align inner ih =>
    cases v with
    | none => trivial
    | some v => exact ih h.1 (input.child (presentPlace align inner)) hv.2

omit [Target] in
theorem fits_of_tagEnum {c : Category} (hc : c.tagEnum.isSome) (v : c.Logical) : c.Fits v := by
  cases c with
  | tagSibling ir => trivial
  | _ => cases hc

section Record
variable {ir : StructIr} {fields : Fin ir.arity → Category} {initializing : Bool}
  {input : Input (struct ir fields).wire} {v : (struct ir fields).Logical} {i : Fin ir.arity}
  {preflight : (i : Fin ir.arity) → Context → ℕ → Input (fields i).wire → (fields i).Logical →
    Outcome SchemaError Unit}

theorem preflightLogicalField_eq_ok {current : ℕ} (hi : (fields i).tagEnum = none)
    (hcurrent : Current ir fields initializing input.bytes i current)
    (hfree : (fields i).payloadEnum = none → current = 0) (hlink : ir.Linked fields) :
    preflightLogicalField ir fields preflight initializing input v i = .ok () ↔
      (∀ t, ir.tagField i = some t → (fields t).storedTag (v t) = (fields i).logicalTag (v i)) ∧
      preflight i (ir.context i) current (input.child (fieldPlace ir fields i)) (v i) = .ok () := by
  have hskip : (fields i).tagEnum.isSome = false := by rw [hi]; rfl
  simp only [preflightLogicalField, hskip, Bool.false_eq_true, if_false, selectField_eq]
  cases ht : ir.tagField i with
  | none =>
    obtain rfl := hfree (hlink.payloadEnum_eq_none ht)
    simp
  | some t =>
    have hread := (provedCurrent_eq_ok (s := input) ht).mpr hcurrent
    by_cases heq : (fields t).storedTag (v t) = (fields i).logicalTag (v i)
    · simp [heq, hread]
    · simp [heq]

end Record

theorem onLayout_payload {ir : TaggedIr} {payload : Fin ir.arity → Category}
    (input : Input (tagged ir payload).wire) (k : Fin ir.arity) :
    (tagged ir payload).onLayout (input.subrange (payload k).wire 0) =
      .ok (input.child (payloadPlace ir payload k)) :=
  (tagged ir payload).onLayout_subrange input (payloadPlace ir payload k)

/-- A payload that is updated in place is the valid one of its variant. -/
theorem valid_payload {ir : TaggedIr} {payload : Fin ir.arity → Category}
    (hd : Function.Injective ir.tag) {initializing : Bool} {tag : ℕ}
    {b : Bytes (tagged ir payload).wire.size} (k : Fin ir.arity)
    (h : initializing = true ∨ (tagged ir payload).Valid tag b) :
    (initializing || decide (tag ≠ ir.tag k)) = true ∨
      (payload k).Valid 0 ((payloadPlace ir payload k).get b) := by
  rcases h with rfl | ⟨l, hl, hvalid⟩
  · exact Or.inl rfl
  · by_cases heq : tag = ir.tag k
    · rw [heq, TaggedIr.select_tag hd, Option.some.injEq] at hl
      exact Or.inr (hl ▸ hvalid)
    · simp [heq]

/-- Preflight of a value looks at the value alone. -/
theorem preflightLogical_eq_ok (c : Category) (h : c.Accepted) (hd : c.DistinctTags)
    {initializing : Bool} {ctx : Context} {tag : ℕ} {input : Input c.wire} {v : c.Logical}
    (hvalid : initializing = true ∨ c.Valid tag input.bytes) :
    c.preflightLogical initializing ctx tag input v = .ok () ↔ c.Fits v := by
  induction c generalizing initializing ctx tag with
  | primitive | bool | scalarEnum | tagSibling | unit => exact ⟨fun _ => trivial, fun _ => rfl⟩
  | string s => exact StringIr.preflight_eq_ok
  | fixedBytes n =>
    exact ⟨fun _ => trivial, fun _ => if_pos v.length_eq⟩
  | struct ir fields ih =>
    rw [preflightLogical, forEach_eq_ok]
    have key (i : Fin ir.arity) (hi : (fields i).tagEnum = none) :
        preflightLogicalField ir fields (fun i => preflightLogical (fields i) initializing)
            initializing input v i = .ok () ↔
          (∀ t, ir.tagField i = some t →
            (fields t).storedTag (v t) = (fields i).logicalTag (v i)) ∧ (fields i).Fits (v i) := by
      obtain ⟨current, hcurrent, hfree, hchild⟩ := exists_current h.2.1 hvalid i
      rw [preflightLogicalField_eq_ok hi hcurrent hfree h.2.1, ih i (h.1 i).1 (hd i) hchild]
    constructor
    · intro hall
      refine ⟨fun i t ht => ((key i (h.2.1.tagEnum_eq_none ht)).mp (hall i)).1 t ht, fun i => ?_⟩
      cases hi : (fields i).tagEnum with
      | none => exact ((key i hi).mp (hall i)).2
      | some e => exact fits_of_tagEnum (by rw [hi]; rfl) (v i)
    · rintro ⟨htags, hfits⟩ i
      cases hi : (fields i).tagEnum with
      | none => exact (key i hi).mpr ⟨htags i, hfits i⟩
      | some e =>
        have hskip : (fields i).tagEnum.isSome := by rw [hi]; rfl
        exact if_pos hskip
  | tagged ir payload ih =>
    obtain ⟨k, v⟩ := v
    rw [preflightLogical, onLayout_payload, Outcome.ok_bind, Outcome.mapErr_eq_ok]
    exact ih k (h.1 k).1 (hd.2 k) (valid_payload hd.1 k hvalid)
  | array element n ih =>
    rw [preflightLogical, forEach_eq_ok]
    refine forall_congr' fun j => ?_
    rw [selectElement_eq]
    change element.childFailure _ _ _ = _ ↔ _
    rw [childFailure_eq_ok]
    exact ih h.1 hd (hvalid.imp_right fun hvalid => hvalid j)
  | optional align inner ih =>
    cases v with
    | none => exact ⟨fun _ => trivial, fun _ => rfl⟩
    | some v =>
      rw [preflightLogical, Context.onLayout_subrange, Outcome.ok_bind, childFailure_eq_ok]
      exact ih h.1 hd (Or.inl rfl)

/-- A record is represented by its fields apart from the tag siblings, when the siblings'
values are the tags of their payloads. -/
theorem represents_fields {ir : StructIr} {fields : Fin ir.arity → Category}
    (hlink : ir.Linked fields) {tag : ℕ} {b : Bytes (struct ir fields).wire.size}
    {v : (struct ir fields).Logical}
    (htags : ∀ i t, ir.tagField i = some t →
      (fields t).storedTag (v t) = (fields i).logicalTag (v i))
    (hfields : ∀ i, (fields i).tagEnum = none → ∃ tag, tagAt ir fields b i = some tag ∧
      (fields i).Represents tag ((fieldPlace ir fields i).get b) (v i)) :
    (struct ir fields).Represents tag b v := by
  intro i
  cases hi : (fields i).tagEnum with
  | none => exact hfields i hi
  | some e =>
    have hsibling : (fields i).tagEnum.isSome := by rw [hi]; rfl
    obtain ⟨owner, howner⟩ := hlink.owner i hsibling
    obtain ⟨tag, htag, hpayload⟩ := hfields owner (hlink.tagEnum_eq_none howner)
    rw [tagAt_of_link howner, ← logicalTag_of_represents (hlink.link owner i howner).1 hpayload,
      ← htags owner i howner] at htag
    exact ⟨0, tagAt_of_none (hlink.tagField_sibling hsibling) b, represents_of_loadTag hsibling htag⟩

/-- What a commit does for a category that no tag selects. -/
theorem commitLogical_untagged {c : Category} (hpay : c.payloadEnum = none) {initializing : Bool}
    {input : Input c.wire} {v : c.Logical}
    (h : ∃ input', c.commitLogical v (initializing || decide (0 ≠ c.logicalTag v)) input =
      some input' ∧ c.Represents (c.logicalTag v) input'.bytes v) :
    ∃ input', c.commitLogical v initializing input = some input' ∧
      c.Represents 0 input'.bytes v := by
  simpa [logicalTag_eq_zero hpay] using h

/-- A present value that is put into an optional is what the optional then holds. -/
theorem represents_put_present {align : Option Alignment} {inner : Category} {tag : ℕ}
    (hacc : (optional align inner).Accepted) {s : Input (optional align inner).wire}
    {x : Input inner.wire} {w : inner.Logical} (hw : inner.Represents 0 x.bytes w) :
    (optional align inner).Represents tag
      (s.put (presentPlace align inner).toCell x.bytes).bytes (some w) := by
  have hget : (presentPlace align inner).get
      (s.put (presentPlace align inner).toCell x.bytes).bytes = x.bytes := by
    rw [Input.bytes_put, Cell.get_put]
  constructor
  · apply not_isZero_of_valid hacc
    rw [hget]
    exact hw.valid
  · rw [hget]
    exact hw

/-- A value that fits is committed without a panic and is what the destination then holds. -/
theorem commitLogical_spec (c : Category) (h : c.Accepted) (hd : c.DistinctTags)
    (initializing : Bool) {tag : ℕ} (input : Input c.wire) {v : c.Logical}
    (hvalid : initializing = true ∨ c.Valid tag input.bytes)
    (hfree : c.payloadEnum = none → tag = 0) (hv : c.Fits v) :
    ∃ input', c.commitLogical v (initializing || decide (tag ≠ c.logicalTag v)) input =
        some input' ∧ c.Represents (c.logicalTag v) input'.bytes v := by
  induction c generalizing initializing tag with
  | primitive p e => exact ⟨_, rfl, p.get_storePreflighted e v⟩
  | bool => exact ⟨_, rfl, BoolWire.decode_storePreflighted v⟩
  | string s => exact s.commit_spec input hv
  | fixedBytes n => exact ⟨_, rfl, rfl⟩
  | scalarEnum ir => exact ⟨_, rfl, EnumIr.load_commit v⟩
  | tagSibling ir => exact ⟨_, rfl, EnumIr.load_commit v⟩
  | unit => exact ⟨_, rfl, trivial⟩
  | struct ir fields ih =>
    obtain rfl := hfree rfl
    rw [logicalTag_flag rfl, commitLogical]
    have hstep (i : Fin ir.arity) (hi : (fields i).tagEnum = none)
        (t : Input (struct ir fields).wire)
        (hchild : t.child (fieldPlace ir fields i) = input.child (fieldPlace ir fields i))
        (htag : tagAt ir fields t.bytes i = tagAt ir fields input.bytes i) :
        ∃ t', commitField ir fields initializing i ((fields i).logicalTag (v i))
            (commitLogical (fields i) (v i)) t = some t' ∧
          (∃ tag, tagAt ir fields t'.bytes i = some tag ∧
            (fields i).Represents tag ((fieldPlace ir fields i).get t'.bytes) (v i)) ∧
          AgreeOn Input.view (fieldWrites ir fields i)ᶜ t t' := by
      obtain ⟨current, hcurrent, hfree, hvi⟩ := exists_current h.2.1 hvalid i
      obtain ⟨child, hcommit, hrep⟩ := ih i (h.1 i).1 (hd i) initializing
        (input.child (fieldPlace ir fields i)) hvi hfree (hv.2 i)
      rw [← hchild] at hcommit
      obtain ⟨t', hrun, hget, htag', hframe⟩ := commitField_spec h.2.1 hi
        (commitLogical (fields i) (v i)) (fun e he => logicalTag_lt he (v i))
        (fun hp => logicalTag_eq_zero hp (v i)) (hcurrent.congr htag) hcommit
      exact ⟨t', hrun, ⟨_, htag', by rwa [hget]⟩, hframe⟩
    obtain ⟨input', hrun, hfields⟩ := foldEach_fields h.2.1
      (fun i tag b => ∃ current, tag = some current ∧ (fields i).Represents current b (v i))
      (fun i hi t => if_pos hi) hstep
    exact ⟨input', hrun, represents_fields h.2.1 hv.1 hfields⟩
  | tagged ir payload ih =>
    obtain ⟨k, v⟩ := v
    have hpay : (payload k).payloadEnum = none := payloadEnum_eq_none (Or.inl (h.1 k).2)
    obtain ⟨child, hcommit, hrep⟩ := commitLogical_untagged hpay
      (ih k (h.1 k).1 (hd.2 k) _ (input.child (payloadPlace ir payload k))
        (valid_payload hd.1 k hvalid) (fun _ => rfl) hv)
    refine ⟨input.put (payloadPlace ir payload k).toCell child.bytes, ?_,
      TaggedIr.select_tag hd.1 k, ?_⟩
    · exact (input.subrangeMut_place (payloadPlace ir payload k) _).trans
        (congrArg (Option.map _) hcommit)
    · rw [Input.bytes_put, Cell.get_put]
      exact hrep
  | array element n ih =>
    have hpay : element.payloadEnum = none := payloadEnum_eq_none (Or.inr (Or.inl h.2.1))
    obtain rfl := hfree rfl
    rw [logicalTag_flag rfl, commitLogical]
    refine foldEach_elements (fun j => commitLogical element (v j) initializing)
      (fun j b => element.Represents 0 b (v j)) fun j => ?_
    exact commitLogical_untagged hpay (ih h.1 hd initializing (input.child (elementPlace element j))
      (hvalid.imp_right fun h => h j) (fun _ => rfl) (hv j))
  | optional align inner ih =>
    cases v with
    | none => exact ⟨input.clearAll, rfl, Bytes.isZero_zero⟩
    | some v =>
      have hpay : inner.payloadEnum = none := payloadEnum_eq_none (Or.inr (Or.inr h.2.1))
      obtain ⟨child, hcommit, hrep⟩ := commitLogical_untagged hpay
        (ih h.1 hd true (input.child (presentPlace align inner)) (Or.inl rfl) (fun _ => rfl) hv)
      refine ⟨input.put (presentPlace align inner).toCell child.bytes, ?_,
        represents_put_present h hrep⟩
      rw [commitLogical, Input.subrangeMut_place, hcommit]
      rfl

end Category

end ZeroSchema
