import ZeroSchema.Mutation.Logical

/-! Patches, and the engine that checks and writes them. An entry of a record patch may be
absent; arrays are replaced whole, through the logical engine. -/
namespace ZeroSchema
open Storage Control

namespace Category

/-- A patch of the category. A tag sibling's entry is the tag itself, an optional's entry says
whether the value is to be present. -/
@[reducible] def Patch : Category → Type
  | primitive p _ => p.Value
  | bool => Bool
  | string s => s.Value
  | fixedBytes n => Bytes n
  | scalarEnum ir => Option ir.Value
  | tagSibling ir => ir.Value
  | struct ir fields => (i : Fin ir.arity) → Option (Patch (fields i))
  | tagged ir payload => (k : Fin ir.arity) × Patch (payload k)
  | unit => Unit
  | array element n => Fin n → element.Logical
  | optional _ inner => Option (Patch inner)

/-- The conversion of a logical value: every entry is present. -/
def fromLogical : (c : Category) → c.Logical → c.Patch
  | primitive _ _, v | bool, v | string _, v | fixedBytes _, v | tagSibling _, v | unit, v
  | array _ _, v => v
  | scalarEnum _, v => some v
  | struct _ fields, v => fun i => some (fromLogical (fields i) (v i))
  | tagged _ payload, ⟨k, v⟩ => ⟨k, fromLogical (payload k) v⟩
  | optional _ _, none => none
  | optional _ inner, some v => some (fromLogical inner v)

/-- Whether a patch supplies a complete logical replacement. -/
def isComplete : (c : Category) → c.Patch → Bool
  | scalarEnum _, p => p.isSome
  | struct ir fields, p =>
    (List.finRange ir.arity).all fun i =>
      match p i with
      | none => false
      | some entry => isComplete (fields i) entry
  | tagged _ payload, ⟨k, p⟩ => isComplete (payload k) p
  | optional _ _, none => true
  | optional _ inner, some p => isComplete inner p
  | primitive _ _, _ | bool, _ | string _, _ | fixedBytes _, _ | tagSibling _, _ | unit, _
  | array _ _, _ => true

/-- The tag an entry for a tag sibling names, and the tag of the variant a payload patch is. -/
def entryTag : (c : Category) → c.Patch → ℕ
  | tagSibling _, p => Fin.val p
  | _, _ => 0

def patchTag : (c : Category) → c.Patch → ℕ
  | tagged ir _, p => (ir.tag p.1 : ℕ)
  | _, _ => 0

theorem isComplete_struct {ir : StructIr} {fields : Fin ir.arity → Category}
    {p : (struct ir fields).Patch} : (struct ir fields).isComplete p = true ↔
      ∀ i, ∃ entry, p i = some entry ∧ (fields i).isComplete entry = true := by
  rw [isComplete, List.all_eq_true]
  constructor
  · intro h i
    have hi := h i (List.mem_finRange i)
    cases hp : p i with
    | none => rw [hp] at hi; cases hi
    | some entry => rw [hp] at hi; exact ⟨entry, rfl, hi⟩
  · intro h i _
    obtain ⟨entry, hp, hentry⟩ := h i
    rw [hp]
    exact hentry

theorem patchTag_eq_zero {c : Category} (h : c.payloadEnum = none) (p : c.Patch) :
    c.patchTag p = 0 := by
  cases c with
  | tagged ir payload => cases h
  | _ => rfl

theorem patchTag_flag {c : Category} (h : c.payloadEnum = none) (initializing : Bool)
    (p : c.Patch) : (initializing || decide (0 ≠ c.patchTag p)) = initializing := by
  simp [patchTag_eq_zero h]

theorem patchTag_lt {c : Category} {e : EnumIr} (h : c.payloadEnum = some e) (p : c.Patch) :
    c.patchTag p < e.arity := by
  cases c with
  | tagged ir payload =>
    obtain rfl := Option.some.inj h
    exact (ir.tag p.1).isLt
  | _ => cases h

@[simp] theorem entryTag_fromLogical (c : Category) (v : c.Logical) :
    c.entryTag (c.fromLogical v) = c.storedTag v := by
  cases c <;> rfl

@[simp] theorem patchTag_fromLogical (c : Category) (v : c.Logical) :
    c.patchTag (c.fromLogical v) = c.logicalTag v := by
  cases c <;> rfl

/-- A converted value counts as complete. -/
theorem isComplete_fromLogical (c : Category) (v : c.Logical) :
    c.isComplete (c.fromLogical v) = true := by
  induction c with
  | primitive | bool | string | fixedBytes | scalarEnum | tagSibling | unit | array => rfl
  | struct ir fields ih => exact isComplete_struct.mpr fun i => ⟨_, rfl, ih i (v i)⟩
  | tagged ir payload ih => exact ih v.1 v.2
  | optional align inner ih =>
    cases v with
    | none => rfl
    | some v => exact ih v

/-- Nothing is initialized from an incomplete patch. -/
def requireComplete (c : Category) (p : c.Patch) (initializing : Bool) (failure : SchemaError)
    (x : Outcome SchemaError Unit) : Outcome SchemaError Unit :=
  if initializing && !c.isComplete p then .err failure else x

theorem requireComplete_eq_ok {c : Category} {p : c.Patch} {initializing : Bool}
    {failure : SchemaError} {x : Outcome SchemaError Unit} :
    c.requireComplete p initializing failure x = .ok () ↔
      (initializing = true → c.isComplete p = true) ∧ x = .ok () := by
  cases initializing <;> cases hp : c.isComplete p <;> simp [requireComplete, hp]

variable [Target]

section Record
variable (ir : StructIr) (fields : Fin ir.arity → Category)

def preflightPatchField
    (preflight : (i : Fin ir.arity) → Context → ℕ → Input (fields i).wire → (fields i).Patch →
      Outcome SchemaError Unit)
    (initializing : Bool) (input : Input (struct ir fields).wire) (p : (struct ir fields).Patch)
    (i : Fin ir.arity) : Outcome SchemaError Unit :=
  let ctx := ir.context i
  if (fields i).tagEnum.isSome then .ok ()
  else
    match ir.tagField i with
    | none =>
      match p i with
      | none => .ok ()
      | some entry => do
        let selected ← ctx.onLayout (selectField ir fields input i)
        (fields i).childFailure ctx .capacityExceeded (preflight i ctx 0 selected entry)
    | some t =>
      match p t, p i with
      | none, none => .ok ()
      | some _, none => .err (ctx.leaf .tagOnlyPatch)
      | tag, some entry =>
        if tag.any fun tag => (fields t).entryTag tag != (fields i).patchTag entry then
          .err (ctx.leaf .tagMismatch)
        else do
          let payload ← ctx.onLayout (selectField ir fields input i)
          let current ← provedCurrent ir fields initializing input t
          (fields i).childFailure ctx .incompleteUnionSwitch (preflight i ctx current payload entry)

/-- An absent entry leaves its field alone. -/
def commitPatchField
    (commit : (i : Fin ir.arity) → (fields i).Patch → Bool → Input (fields i).wire →
      Option (Input (fields i).wire))
    (initializing : Bool) (p : (struct ir fields).Patch) (input : Input (struct ir fields).wire)
    (i : Fin ir.arity) : Option (Input (struct ir fields).wire) :=
  match p i with
  | none => some input
  | some entry =>
    commitField ir fields initializing i ((fields i).patchTag entry) (commit i entry) input

end Record

/-- Checks a patch against the destination. A variant other than the stored one, and a value
for an absent optional, need a complete patch. -/
def preflightPatch : (c : Category) → Bool → Context → ℕ → Input c.wire → c.Patch →
    Outcome SchemaError Unit
  | primitive _ _, _, _, _, _, _ | bool, _, _, _, _, _ | scalarEnum _, _, _, _, _, _
  | tagSibling _, _, _, _, _, _ | unit, _, _, _, _, _ => .ok ()
  | string s, _, ctx, _, input, p => s.preflight ctx input p
  | fixedBytes n, _, ctx, _, _, p => FixedBytes.preflight n ctx p.toList
  | struct ir fields, initializing, _, _, input, p =>
    forEach ir.arity (preflightPatchField ir fields
      (fun i => preflightPatch (fields i) initializing) initializing input p)
  | tagged ir payload, initializing, _, tag, input, ⟨k, p⟩ =>
    let initializing := initializing || decide (tag ≠ ir.tag k)
    (payload k).requireComplete p initializing (.layout ir.logicalName .offsetOverflow) do
      let child ← (tagged ir payload).onLayout (input.subrange (payload k).wire 0)
      (preflightPatch (payload k) initializing .root 0 child p).mapErr
        fun _ => .layout ir.logicalName .offsetOverflow
  | array element n, initializing, ctx, tag, input, p =>
    (array element n).preflightLogical initializing ctx tag input p
  | optional _ _, _, _, _, _, none => .ok ()
  | optional align inner, initializing, ctx, _, input, some p => do
    let value ← ctx.onLayout (input.subrange inner.wire (presentPlace align inner).offset)
    let initializing := initializing || input.isAllZero
    inner.requireComplete p initializing (ctx.leaf .incompleteOptionalInitialization)
      (inner.childFailure ctx .capacityExceeded (preflightPatch inner initializing ctx 0 value p))

/-- Writes a preflighted patch; `none` is a branch declared unreachable. -/
def commitPatch : (c : Category) → c.Patch → Bool → Input c.wire → Option (Input c.wire)
  | primitive p e, v, _, input => some (input.overwrite (p.storePreflighted e v))
  | bool, v, _, input => some (input.overwrite (BoolWire.storePreflighted v))
  | string s, v, _, input => s.commit input v
  | fixedBytes _, v, _, input => some (input.overwrite v)
  | scalarEnum _, none, _, input => some input
  | scalarEnum ir, some v, _, input => some (input.overwrite (ir.commit v))
  | tagSibling ir, v, _, input => some (input.overwrite (ir.commit v))
  | struct ir fields, p, initializing, input =>
    foldEach ir.arity (commitPatchField ir fields (fun i => commitPatch (fields i)) initializing p)
      input
  | tagged _ payload, ⟨k, p⟩, initializing, input =>
    input.subrangeMut (payload k).wire 0 (commitPatch (payload k) p initializing)
  | unit, _, _, input => some input
  | array element n, v, initializing, input =>
    (array element n).commitLogical v initializing input
  | optional _ _, none, _, input => some input.clearAll
  | optional align inner, some p, initializing, input =>
    input.subrangeMut inner.wire (presentPlace align inner).offset
      (commitPatch inner p (initializing || input.isAllZero))

section Record
variable {ir : StructIr} {fields : Fin ir.arity → Category} {initializing : Bool}
  {input : Input (struct ir fields).wire} {p : (struct ir fields).Patch} {i : Fin ir.arity}
  {preflight : (i : Fin ir.arity) → Context → ℕ → Input (fields i).wire → (fields i).Patch →
    Outcome SchemaError Unit}

theorem preflightPatchField_eq_ok {current : ℕ} (hi : (fields i).tagEnum = none)
    (hcurrent : Current ir fields initializing input.bytes i current)
    (hfree : (fields i).payloadEnum = none → current = 0) (hlink : ir.Linked fields) :
    preflightPatchField ir fields preflight initializing input p i = .ok () ↔
      (∀ t, ir.tagField i = some t → ∀ tag, p t = some tag →
        ∃ entry, p i = some entry ∧ (fields t).entryTag tag = (fields i).patchTag entry) ∧
      ∀ entry, p i = some entry →
        preflight i (ir.context i) current (input.child (fieldPlace ir fields i)) entry =
          .ok () := by
  have hskip : (fields i).tagEnum.isSome = false := by rw [hi]; rfl
  simp only [preflightPatchField, hskip, Bool.false_eq_true, if_false, selectField_eq]
  cases ht : ir.tagField i with
  | none =>
    obtain rfl := hfree (hlink.payloadEnum_eq_none ht)
    cases p i with
    | none => simp
    | some entry => simp
  | some t =>
    have hread := (provedCurrent_eq_ok (s := input) ht).mpr hcurrent
    cases hpt : p t with
    | none =>
      cases hpi : p i with
      | none => simp [hpt]
      | some entry => simp [hpt, hread]
    | some tag =>
      cases hpi : p i with
      | none => simp [hpt]
      | some entry =>
        by_cases heq : (fields t).entryTag tag = (fields i).patchTag entry
        · simp [hpt, heq, hread]
        · simp [hpt, heq]

end Record

section Record
variable {ir : StructIr} {fields : Fin ir.arity → Category} {initializing : Bool}
  {p : (struct ir fields).Patch} {i : Fin ir.arity}

theorem commitPatchField_sibling {input : Input (struct ir fields).wire}
    {commit : (i : Fin ir.arity) → (fields i).Patch → Bool → Input (fields i).wire →
      Option (Input (fields i).wire)} (hi : (fields i).tagEnum.isSome) :
    commitPatchField ir fields commit initializing p input i = some input := by
  unfold commitPatchField commitField
  cases p i with
  | none => rfl
  | some entry => exact if_pos hi

end Record

/-- A converted value passes every preflight that its value fits. -/
theorem preflightPatch_fromLogical (c : Category) (h : c.Accepted) (hd : c.DistinctTags)
    {initializing : Bool} {ctx : Context} {tag : ℕ} {input : Input c.wire} {v : c.Logical}
    (hvalid : initializing = true ∨ c.Valid tag input.bytes) (hv : c.Fits v) :
    c.preflightPatch initializing ctx tag input (c.fromLogical v) = .ok () := by
  induction c generalizing initializing ctx tag with
  | primitive | bool | scalarEnum | tagSibling | unit => rfl
  | string s => exact StringIr.preflight_eq_ok.mpr hv
  | fixedBytes n => exact if_pos v.length_eq
  | struct ir fields ih =>
    rw [preflightPatch, forEach_eq_ok]
    intro i
    cases hi : (fields i).tagEnum with
    | some e =>
      have hskip : (fields i).tagEnum.isSome := by rw [hi]; rfl
      exact if_pos hskip
    | none =>
      obtain ⟨current, hcurrent, hfree, hchild⟩ := exists_current h.2.1 hvalid i
      rw [preflightPatchField_eq_ok hi hcurrent hfree h.2.1]
      constructor
      · rintro t ht _ ⟨⟩
        exact ⟨_, rfl, by simp only [entryTag_fromLogical, patchTag_fromLogical, hv.1 i t ht]⟩
      · rintro _ ⟨⟩
        exact ih i (h.1 i).1 (hd i) hchild (hv.2 i)
  | tagged ir payload ih =>
    obtain ⟨k, v⟩ := v
    refine requireComplete_eq_ok.mpr ⟨fun _ => isComplete_fromLogical _ v, ?_⟩
    rw [onLayout_payload, Outcome.ok_bind, Outcome.mapErr_eq_ok]
    exact ih k (h.1 k).1 (hd.2 k) (valid_payload hd.1 k hvalid) hv
  | array element n ih => exact (preflightLogical_eq_ok (array element n) h hd hvalid).mpr hv
  | optional align inner ih =>
    cases v with
    | none => rfl
    | some v =>
      change (ctx.onLayout _ >>= _) = _
      rw [Context.onLayout_subrange, Outcome.ok_bind]
      refine requireComplete_eq_ok.mpr ⟨fun _ => isComplete_fromLogical inner v, ?_⟩
      rw [childFailure_eq_ok]
      refine ih h.1 hd ?_ hv
      rcases hvalid with rfl | hzero | hvalid
      · exact Or.inl rfl
      · simp [Input.isAllZero_eq_true.mpr hzero]
      · exact Or.inr hvalid

end Category

end ZeroSchema
