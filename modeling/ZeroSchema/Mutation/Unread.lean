import ZeroSchema.Mutation.Agreement
import ZeroSchema.Schema.Unread

/-! Checks of logically equal destinations. A preflight that initializes does not look at its
destination, and any other looks at logical bytes only. -/
namespace ZeroSchema
open Storage Control

namespace Category
variable [Target]

/-- What a check may assume of two destinations. -/
def SameStart (c : Category) (initializing : Bool) (tag : ℕ) (b b' : Bytes c.wire.size) : Prop :=
  initializing = true ∨ c.LogicalEq tag b b'

section Record
variable {ir : StructIr} {fields : Fin ir.arity → Category} {initializing : Bool} {tag : ℕ}
  {input input' : Input (struct ir fields).wire} {i t : Fin ir.arity}

theorem provedTag_congr (ht : (fields t).tagEnum.isSome)
    (h : (fieldPlace ir fields t).get input'.bytes = (fieldPlace ir fields t).get input.bytes) :
    provedTag ir fields (fun i => prove (fields i)) input' t =
      provedTag ir fields (fun i => prove (fields i)) input t := by
  have key (c : Category) (hc : c.tagEnum.isSome) (ctx : Context) (s s' : Input c.wire)
      (hs : s'.bytes = s.bytes) : c.prove ctx 0 s' = c.prove ctx 0 s := by
    cases c with
    | tagSibling ir =>
      rw [prove, prove, hs]
    | _ => cases hc
  have hprove := key (fields t) ht (ir.context t) (input.child (fieldPlace ir fields t))
    (input'.child (fieldPlace ir fields t)) h
  unfold provedTag
  simp only [selectField_eq, Context.onLayout_ok, Outcome.ok_bind, hprove, Input.bytes_child, h]

theorem SameStart.field (h : (struct ir fields).SameStart initializing tag input.bytes input'.bytes)
    {current : ℕ} (hcurrent : Current ir fields initializing input.bytes i current) :
    (fields i).SameStart initializing current ((fieldPlace ir fields i).get input.bytes)
      ((fieldPlace ir fields i).get input'.bytes) := by
  cases initializing with
  | true => exact Or.inl rfl
  | false =>
    have hequal := h.resolve_left Bool.false_ne_true
    exact Or.inr (hequal i current hcurrent)

/-- A check that starts from the current tag starts from the same one, if any. -/
theorem SameStart.current_bind (hlink : ir.Linked fields) (ht : ir.tagField i = some t)
    (h : (struct ir fields).SameStart initializing tag input.bytes input'.bytes)
    {check check' : ℕ → Outcome SchemaError Unit}
    (hcheck : ∀ current, Current ir fields initializing input.bytes i current →
      check' current = check current) :
    (provedCurrent ir fields initializing input' t >>= check') =
      (provedCurrent ir fields initializing input t >>= check) := by
  have hsibling := hlink.tagEnum_isSome ht
  have hread : provedCurrent ir fields initializing input' t =
      provedCurrent ir fields initializing input t := by
    cases initializing with
    | true => rfl
    | false =>
      have hequal := h.resolve_left Bool.false_ne_true
      exact provedTag_congr hsibling (hequal.sibling hlink hsibling)
  rw [hread]
  cases hok : provedCurrent ir fields initializing input t with
  | ok current => exact hcheck current ((provedCurrent_eq_ok ht).mp hok)
  | err e => rfl
  | unreachable => rfl

theorem preflightLogicalField_congr (hlink : ir.Linked fields)
    (h : (struct ir fields).SameStart initializing tag input.bytes input'.bytes)
    {check : (i : Fin ir.arity) → Context → ℕ → Input (fields i).wire → (fields i).Logical →
      Outcome SchemaError Unit} {v : (struct ir fields).Logical}
    (hcheck : ∀ current, Current ir fields initializing input.bytes i current →
      check i (ir.context i) current (input'.child (fieldPlace ir fields i)) (v i) =
        check i (ir.context i) current (input.child (fieldPlace ir fields i)) (v i)) :
    preflightLogicalField ir fields check initializing input' v i =
      preflightLogicalField ir fields check initializing input v i := by
  unfold preflightLogicalField
  split_ifs
  · rfl
  · cases ht : ir.tagField i with
    | none =>
      simp only [selectField_eq, Context.onLayout_ok, Outcome.ok_bind]
      rw [hcheck 0 (current_of_none initializing input.bytes ht)]
    | some t =>
      simp only [selectField_eq, Context.onLayout_ok, Outcome.ok_bind]
      split_ifs
      · rfl
      · apply h.current_bind hlink ht
        intro current hcurrent
        rw [hcheck current hcurrent]

theorem preflightPatchField_congr (hlink : ir.Linked fields)
    (h : (struct ir fields).SameStart initializing tag input.bytes input'.bytes)
    {check : (i : Fin ir.arity) → Context → ℕ → Input (fields i).wire → (fields i).Patch →
      Outcome SchemaError Unit} {p : (struct ir fields).Patch}
    (hcheck : ∀ current, Current ir fields initializing input.bytes i current → ∀ entry,
      check i (ir.context i) current (input'.child (fieldPlace ir fields i)) entry =
        check i (ir.context i) current (input.child (fieldPlace ir fields i)) entry) :
    preflightPatchField ir fields check initializing input' p i =
      preflightPatchField ir fields check initializing input p i := by
  unfold preflightPatchField
  split_ifs
  · rfl
  · cases ht : ir.tagField i with
    | none =>
      cases p i with
      | none => rfl
      | some entry =>
        simp only [selectField_eq, Context.onLayout_ok, Outcome.ok_bind]
        rw [hcheck 0 (current_of_none initializing input.bytes ht)]
    | some t =>
      have hbind (entry : (fields i).Patch) :
          (provedCurrent ir fields initializing input' t >>= fun current =>
            (fields i).childFailure (ir.context i) .incompleteUnionSwitch
              (check i (ir.context i) current (input'.child (fieldPlace ir fields i)) entry)) =
          provedCurrent ir fields initializing input t >>= fun current =>
            (fields i).childFailure (ir.context i) .incompleteUnionSwitch
              (check i (ir.context i) current (input.child (fieldPlace ir fields i)) entry) := by
        apply h.current_bind hlink ht
        intro current hcurrent
        rw [hcheck current hcurrent]
      simp only [selectField_eq, Context.onLayout_ok, Outcome.ok_bind, hbind]

end Record

/-- The payload that a check works on is the selected one, or is initialized. -/
theorem SameStart.payload {ir : TaggedIr} {payload : Fin ir.arity → Category}
    (hd : Function.Injective ir.tag) {initializing : Bool} {tag : ℕ}
    {b b' : Bytes (tagged ir payload).wire.size}
    (h : (tagged ir payload).SameStart initializing tag b b') (k : Fin ir.arity) :
    (payload k).SameStart (initializing || decide (tag ≠ ir.tag k)) 0
      ((payloadPlace ir payload k).get b) ((payloadPlace ir payload k).get b') := by
  cases initializing with
  | true => exact Or.inl rfl
  | false =>
    have hequal := h.resolve_left Bool.false_ne_true
    by_cases htag : tag = ir.tag k
    · apply Or.inr
      apply hequal k
      rw [htag, ir.select_tag hd]
    · apply Or.inl
      simp [htag]

/-- Presence is read off the whole storage, and an absent value is initialized. -/
theorem SameStart.presence {align : Option Alignment} {inner : Category} {initializing : Bool}
    {tag : ℕ} {input input' : Input (optional align inner).wire}
    (h : (optional align inner).SameStart initializing tag input.bytes input'.bytes) :
    (initializing || input'.isAllZero) = (initializing || input.isAllZero) ∧
      inner.SameStart (initializing || input.isAllZero) 0
        ((presentPlace align inner).get input.bytes)
        ((presentPlace align inner).get input'.bytes) := by
  cases initializing with
  | true => exact ⟨rfl, Or.inl rfl⟩
  | false =>
    rcases h.resolve_left Bool.false_ne_true with ⟨hz, hz'⟩ | ⟨hz, hz', hvalue⟩
    · have hzero := Input.isAllZero_eq_true.mpr hz
      have hzero' := Input.isAllZero_eq_true.mpr hz'
      rw [hzero, hzero']
      exact ⟨rfl, Or.inl rfl⟩
    · have hnonzero := Bool.eq_false_iff.mpr (mt Input.isAllZero_eq_true.mp hz)
      have hnonzero' := Bool.eq_false_iff.mpr (mt Input.isAllZero_eq_true.mp hz')
      rw [hnonzero, hnonzero']
      exact ⟨rfl, Or.inr hvalue⟩

theorem preflightLogical_congr (c : Category) (hacc : c.Accepted) (hd : c.DistinctTags)
    {initializing : Bool} (ctx : Context) (tag : ℕ) (input input' : Input c.wire) (v : c.Logical)
    (h : c.SameStart initializing tag input.bytes input'.bytes) :
    c.preflightLogical initializing ctx tag input' v =
      c.preflightLogical initializing ctx tag input v := by
  induction c generalizing initializing ctx tag with
  | primitive | bool | scalarEnum | tagSibling | unit | fixedBytes => rfl
  | string s => exact (StringIr.preflight_eq ctx input' v).trans (StringIr.preflight_eq ctx input v).symm
  | struct ir fields ih =>
    rw [preflightLogical, preflightLogical]
    congr 1
    funext i
    apply preflightLogicalField_congr hacc.2.1 h
    intro current hcurrent
    exact ih i (hacc.1 i).1 (hd i) _ current (input.child (fieldPlace ir fields i))
      (input'.child (fieldPlace ir fields i)) (v i) (h.field hcurrent)
  | tagged ir payload ih =>
    obtain ⟨k, v⟩ := v
    have hchild := ih k (hacc.1 k).1 (hd.2 k) .root 0 (input.child (payloadPlace ir payload k))
      (input'.child (payloadPlace ir payload k)) v (h.payload hd.1 k)
    rw [preflightLogical, preflightLogical, onLayout_payload, onLayout_payload, Outcome.ok_bind,
      Outcome.ok_bind, hchild]
  | array element n ih =>
    rw [preflightLogical, preflightLogical]
    congr 1
    funext j
    have hchild := ih hacc.1 hd (ctx.element n j) 0 (input.child (elementPlace element j))
      (input'.child (elementPlace element j)) (v j) (h.imp_right fun hequal => hequal j)
    rw [selectElement_eq, selectElement_eq, Context.onLayout_ok, Context.onLayout_ok,
      Outcome.ok_bind, Outcome.ok_bind, hchild]
  | optional align inner ih =>
    cases v with
    | none => rfl
    | some v =>
      have hchild := ih hacc.1 hd ctx 0 (input.child (presentPlace align inner))
        (input'.child (presentPlace align inner)) v (Or.inl rfl)
      rw [preflightLogical, preflightLogical, Context.onLayout_subrange, Context.onLayout_subrange,
        Outcome.ok_bind, Outcome.ok_bind, hchild]

theorem preflightPatch_congr (c : Category) (hacc : c.Accepted) (hd : c.DistinctTags)
    {initializing : Bool} (ctx : Context) (tag : ℕ) (input input' : Input c.wire) (p : c.Patch)
    (h : c.SameStart initializing tag input.bytes input'.bytes) :
    c.preflightPatch initializing ctx tag input' p =
      c.preflightPatch initializing ctx tag input p := by
  induction c generalizing initializing ctx tag with
  | primitive | bool | scalarEnum | tagSibling | unit | fixedBytes => rfl
  | string s => exact (StringIr.preflight_eq ctx input' p).trans (StringIr.preflight_eq ctx input p).symm
  | struct ir fields ih =>
    rw [preflightPatch, preflightPatch]
    congr 1
    funext i
    apply preflightPatchField_congr hacc.2.1 h
    intro current hcurrent entry
    exact ih i (hacc.1 i).1 (hd i) _ current (input.child (fieldPlace ir fields i))
      (input'.child (fieldPlace ir fields i)) entry (h.field hcurrent)
  | tagged ir payload ih =>
    obtain ⟨k, p⟩ := p
    have hchild := ih k (hacc.1 k).1 (hd.2 k) .root 0 (input.child (payloadPlace ir payload k))
      (input'.child (payloadPlace ir payload k)) p (h.payload hd.1 k)
    rw [preflightPatch, preflightPatch, onLayout_payload, onLayout_payload, Outcome.ok_bind,
      Outcome.ok_bind, hchild]
  | array element n => exact preflightLogical_congr (array element n) hacc hd ctx tag input input' p h
  | optional align inner ih =>
    cases p with
    | none => rfl
    | some p =>
      have hpresence := h.presence
      have hchild := ih hacc.1 hd ctx 0 (input.child (presentPlace align inner))
        (input'.child (presentPlace align inner)) p hpresence.2
      rw [preflightPatch, preflightPatch, Context.onLayout_subrange, Context.onLayout_subrange,
        Outcome.ok_bind, Outcome.ok_bind]
      simp only [hpresence.1, hchild]

end Category

end ZeroSchema
