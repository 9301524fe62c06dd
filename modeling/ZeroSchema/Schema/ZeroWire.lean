import ZeroSchema.Schema.Meaning

/-! The all-zero wire: what the three zero analyses say about it, and why it is a safe
sentinel for absence. -/
namespace ZeroSchema
open Storage

namespace Category

/-- The sibling tag that all-zero bytes store for a payload. -/
def ZeroTag (c : Category) (tag : ℕ) : Prop :=
  ∀ e, c.payloadEnum = some e → ∃ v : e.Value, e.toRaw v = 0 ∧ (v : ℕ) = tag

theorem zeroTag_of_payloadEnum {c : Category} (h : c.payloadEnum = none) (tag : ℕ) :
    c.ZeroTag tag := by
  intro e he
  rw [h] at he
  cases he

variable [Target]

section Record
variable {ir : StructIr} {fields : Fin ir.arity → Category}

/-- In an all-zero record every payload is selected by the zero tag. -/
theorem zeroTag_of_tagAt (hlink : ir.Linked fields) {i : Fin ir.arity} {tag : ℕ}
    (h : tagAt ir fields (Bytes.zero _) i = some tag) : (fields i).ZeroTag tag := by
  intro e he
  simp only [tagAt, StructIr.siblingTag] at h
  obtain ⟨t, ht⟩ := Option.isSome_iff_exists.mp (hlink.linked i (by rw [he]; rfl))
  obtain ⟨tir, payload, hi, htag⟩ := hlink.ends ht
  rw [hi] at he
  obtain rfl := Option.some.inj he
  simp only [ht, Cell.get_zero] at h
  revert h
  rw [htag]
  intro h
  obtain ⟨v, hv, rfl⟩ := Option.map_eq_some_iff.mp h
  rw [EnumIr.load, WireInt.raw_zero, EnumIr.fromRaw_eq_some] at hv
  exact ⟨v, hv, rfl⟩

theorem exists_tagAt_zero (hlink : ir.Linked fields)
    (hzero : ∀ i, (fields i).zeroIsValid = true) (i : Fin ir.arity) :
    ∃ tag, tagAt ir fields (Bytes.zero _) i = some tag := by
  simp only [tagAt, StructIr.siblingTag, Cell.get_zero]
  cases ht : ir.tagField i with
  | none => exact ⟨0, rfl⟩
  | some t =>
    obtain ⟨tir, payload, -, htag⟩ := hlink.ends ht
    have hdecl := hzero t
    change ∃ tag, (fields t).loadTag (Bytes.zero _) = some tag
    rw [htag] at hdecl ⊢
    obtain ⟨v, hv⟩ := Option.isSome_iff_exists.mp (EnumIr.load_zero.mpr hdecl)
    exact ⟨v, Option.map_eq_some_iff.mpr ⟨v, hv, rfl⟩⟩

end Record

/-- All-zero bytes are valid only where `ZERO_IS_VALID` says so. -/
theorem zeroIsValid_of_valid_zero (c : Category) (h : c.Accepted) {tag : ℕ} (ht : c.ZeroTag tag)
    (hvalid : c.Valid tag (Bytes.zero _)) : c.zeroIsValid = true := by
  induction c generalizing tag with
  | primitive | bool | string | fixedBytes | optional | unit => rfl
  | scalarEnum ir => exact EnumIr.load_zero.mp (EnumIr.isSome_load.mpr hvalid)
  | tagSibling ir => exact EnumIr.load_zero.mp (EnumIr.isSome_load.mpr hvalid)
  | struct ir fields ih =>
    refine zeroIsValid_struct.mpr fun i => ?_
    obtain ⟨tag, htag, hi⟩ := hvalid i
    rw [Cell.get_zero] at hi
    exact ih i (h.1 i).1 (zeroTag_of_tagAt h.2.1 htag) hi
  | tagged ir payload ih =>
    obtain ⟨k, hk, hchild⟩ := hvalid
    obtain ⟨v, hv, rfl⟩ := ht ir.tagType rfl
    obtain rfl : ir.tag k = v := Fin.ext (TaggedIr.tag_of_select hk)
    rw [Cell.get_zero] at hchild
    exact zeroIsValid_tagged.mpr
      ⟨k, hv, ih k (h.1 k).1 (zeroTag_of_payloadEnum (payloadEnum_eq_none (Or.inl (h.1 k).2)) 0) hchild⟩
  | array element n ih =>
    have hj := hvalid ⟨0, Nat.pos_of_ne_zero h.2.2⟩
    rw [Cell.get_zero] at hj
    exact ih h.1 (zeroTag_of_payloadEnum (payloadEnum_eq_none (Or.inr (Or.inl h.2.1))) 0) hj

/-- Where `ZERO_IS_VALID` holds the all-zero bytes are valid, provided that the zero tag
selects a variant that the constant looked at. -/
theorem valid_zero (c : Category) (h : c.Accepted) {tag : ℕ} (ht : c.ZeroTag tag)
    (hzero : c.zeroIsValid = true) (hsel : c.DistinctTags ∨ c.clearState = .zeroValid) :
    c.Valid tag (Bytes.zero _) := by
  induction c generalizing tag with
  | primitive | fixedBytes | unit => trivial
  | bool => exact Or.inl rfl
  | string s => exact StringIr.valid_zero h
  | scalarEnum ir => exact EnumIr.isSome_load.mp (EnumIr.load_zero.mpr hzero)
  | tagSibling ir => exact EnumIr.isSome_load.mp (EnumIr.load_zero.mpr hzero)
  | struct ir fields ih =>
    have hfields := zeroIsValid_struct.mp hzero
    intro i
    obtain ⟨tag, htag⟩ := exists_tagAt_zero h.2.1 hfields i
    refine ⟨tag, htag, ?_⟩
    rw [Cell.get_zero]
    exact ih i (h.1 i).1 (zeroTag_of_tagAt h.2.1 htag) (hfields i)
      (hsel.imp (fun hd => hd i) fun hc => state_struct.mp hc i)
  | tagged ir payload ih =>
    obtain ⟨v, hv, rfl⟩ := ht ir.tagType rfl
    obtain ⟨k, hk, hpayload⟩ := zeroIsValid_tagged.mp hzero
    obtain rfl : ir.tag k = v := EnumIr.toRaw_injective (hk.trans hv.symm)
    have descend (l : Fin ir.arity) (hl : (payload l).zeroIsValid = true)
        (hs : (payload l).DistinctTags ∨ (payload l).clearState = .zeroValid) :
        (payload l).Valid 0 ((payloadPlace ir payload l).get (Bytes.zero _)) := by
      rw [Cell.get_zero]
      exact ih l (h.1 l).1 (zeroTag_of_payloadEnum (payloadEnum_eq_none (Or.inl (h.1 l).2)) 0) hl hs
    rcases hsel with hd | hc
    · exact ⟨k, TaggedIr.select_tag hd.1 k, descend k hpayload (Or.inl (hd.2 k))⟩
    · -- several variants may claim the zero tag, and every payload is clearable
      have hall := (clearState_tagged.mp hc).2
      obtain ⟨l, hl⟩ := Option.ne_none_iff_exists'.mp fun hn =>
        (ir.select_eq_none).mp hn k rfl
      exact ⟨l, hl, descend l (zeroIsValid_of_clearState _ (hall l)) (Or.inr (hall l))⟩
  | array element n ih =>
    intro j
    rw [Cell.get_zero]
    exact ih h.1 (zeroTag_of_payloadEnum (payloadEnum_eq_none (Or.inr (Or.inl h.2.1))) 0) hzero hsel
  | optional align inner => exact Or.inl Bytes.isZero_zero

/-- A clearable root is valid after it was cleared. -/
theorem valid_zero_of_clearState {c : Category} (hpath : c.isPath = true) (h : c.Accepted)
    (hclear : c.clearState = .zeroValid) : c.Valid 0 (Bytes.zero _) :=
  valid_zero c h (zeroTag_of_payloadEnum (payloadEnum_eq_none (Or.inl (isPayload_of_isPath hpath))) 0)
    (zeroIsValid_of_clearState c hclear) (Or.inr hclear)

/-- No valid present value is all zero, so presence can be read off the storage. -/
theorem not_isZero_of_valid {align : Option Alignment} {inner : Category}
    (h : (optional align inner).Accepted) {b : Bytes (optional align inner).wire.size}
    (hvalid : inner.Valid 0 ((presentPlace align inner).get b)) : ¬b.IsZero := by
  intro hz
  rw [Bytes.isZero_iff.mp hz, Cell.get_zero] at hvalid
  have htag : inner.ZeroTag 0 :=
    zeroTag_of_payloadEnum (payloadEnum_eq_none (Or.inr (Or.inr h.2.1))) 0
  have hstate := zeroState_of_zeroIsValid inner (zeroIsValid_of_valid_zero inner h.1 htag hvalid)
  rw [h.2.2] at hstate
  cases hstate

end Category

end ZeroSchema
