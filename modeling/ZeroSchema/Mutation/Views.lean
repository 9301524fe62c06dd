import ZeroSchema.Mutation.Clear
import ZeroSchema.Mutation.Getters

/-! What a proved handle shows. All getters complete, and every way to read a value returns the
value that the bytes represent. -/
namespace ZeroSchema
open Storage Control

namespace Category
variable [Target]

/-- No getter on a way from a valid handle panics, and the handle at the end is valid. -/
theorem Sight.look_valid {c d : Category} (sight : Sight c d) (hd : c.DistinctTags) {tag : ℕ}
    {input : Input c.wire} (h : c.Valid tag input.bytes) :
    ∃ found, sight.look tag input = some found ∧ ∀ tag' input', found = some (tag', input') →
      d.DistinctTags ∧ d.Valid tag' input'.bytes := by
  induction sight generalizing tag with
  | here =>
    refine ⟨_, rfl, ?_⟩
    rintro tag' input' ⟨⟩
    exact ⟨hd, h⟩
  | @field ir fields d i rest ih =>
    obtain ⟨tag', htag, hfield⟩ := h i
    rw [look, fieldRef_of_valid htag hfield]
    exact ih (hd i) hfield
  | @element element n d index rest ih =>
    rw [look]
    by_cases hlt : index < n
    · have hget := ArrayRef.get_of_valid h ⟨index, hlt⟩
      rw [hget]
      exact ih hd (h ⟨index, hlt⟩)
    · have hget : ArrayRef.get element n input index = some none := if_pos (by omega)
      rw [hget]
      exact ⟨none, rfl, by simp⟩
  | @present align inner d rest ih =>
    rw [look]
    by_cases hz : input.bytes.IsZero
    · rw [OptionRef.get_of_zero hz]
      exact ⟨none, rfl, by simp⟩
    · have hvalue := h.resolve_left hz
      rw [OptionRef.get_of_valid hz hvalue]
      exact ih hd hvalue
  | @variant ir payload d k rest ih =>
    rw [look]
    by_cases hk : tag = ir.tag k
    · obtain ⟨j, hj, hpayload⟩ := h
      obtain rfl : j = k := by
        rw [hk, ir.select_tag hd.1] at hj
        exact (Option.some.inj hj).symm
      rw [TaggedRef.accessor_of_valid hk hpayload]
      exact ih (hd.2 j) hpayload
    · rw [TaggedRef.accessor_other hk]
      exact ⟨none, rfl, by simp⟩

/-- The first accessor that answers is that of the selected variant. -/
theorem gather_variant {ir : TaggedIr} {payload : Fin ir.arity → Category} {tag : ℕ}
    {k : Fin ir.arity} {input : Input (tagged ir payload).wire} {v : (payload k).Logical}
    (hk : ir.select tag = some k)
    (h : (payload k).Represents 0 ((payloadPlace ir payload k).get input.bytes) v)
    (hv : (payload k).gather 0 (input.child (payloadPlace ir payload k)) = some v) :
    (tagged ir payload).gather tag input = some ⟨k, v⟩ := by
  have hvalid : (payload k).Valid 0 (input.child (payloadPlace ir payload k)).bytes :=
    Represents.valid (payload k) h
  have haccess := TaggedRef.accessor_of_valid (TaggedIr.tag_of_select hk).symm hvalid
  have main (l : List (Fin ir.arity)) (hl : l.find? (fun j => (ir.tag j : ℕ) = tag) = some k) :
      firstAnswer (TaggedRef.accessor ir payload tag input) (fun k => (payload k).gather 0) l =
        some ⟨k, v⟩ := by
    induction l with
    | nil => cases hl
    | cons j l ih =>
      rw [firstAnswer]
      by_cases hj : (ir.tag j : ℕ) = tag
      · rw [List.find?_cons_of_pos (by simpa using hj)] at hl
        obtain rfl := Option.some.inj hl
        rw [haccess]
        change (gather (payload j) 0 _).map _ = _
        rw [hv]
        rfl
      · rw [List.find?_cons_of_neg (by simpa using hj)] at hl
        rw [TaggedRef.accessor_other (Ne.symm hj)]
        exact ih hl
  exact main _ hk

/-- The getters together return the value that the bytes represent. -/
theorem gather_eq (c : Category) {tag : ℕ} (input : Input c.wire) {v : c.Logical}
    (h : c.Represents tag input.bytes v) : c.gather tag input = some v := by
  induction c generalizing tag with
  | primitive p e => exact congrArg some h
  | bool => exact h
  | string s => exact materialize_eq (string s) input h
  | fixedBytes n => exact congrArg some h
  | scalarEnum ir => exact h
  | tagSibling ir => exact h
  | struct ir fields ih =>
    apply collect_eq_some.mpr
    intro i
    obtain ⟨tag, htag, hv⟩ := h i
    have hvalid : (fields i).Valid tag (input.child (fieldPlace ir fields i)).bytes :=
      Represents.valid (fields i) hv
    rw [fieldRef_of_valid htag hvalid]
    exact ih i (input.child (fieldPlace ir fields i)) hv
  | tagged ir payload ih =>
    obtain ⟨k, v⟩ := v
    exact gather_variant h.1 h.2 (ih k (input.child (payloadPlace ir payload k)) h.2)
  | unit => rfl
  | array element n ih =>
    apply collect_eq_some.mpr
    intro j
    rw [ArrayRef.get_of_valid (Represents.valid (array element n) h)]
    exact ih (input.child (elementPlace element j)) (h j)
  | optional align inner ih =>
    rw [gather]
    cases v with
    | none =>
      rw [OptionRef.get_of_zero h]
      rfl
    | some v =>
      obtain ⟨hz, hv⟩ := h
      have hvalid : inner.Valid 0 (input.child (presentPlace align inner)).bytes :=
        Represents.valid inner hv
      rw [OptionRef.get_of_valid hz hvalid]
      change (inner.gather 0 _).map some = _
      rw [ih (input.child (presentPlace align inner)) hv]
      rfl

/-- `copy_into` of both families, too. -/
theorem copyInto_eq (c : Category) {tag : ℕ} (input : Input c.wire) {v : c.Logical}
    (h : c.Represents tag input.bytes v) :
    c.copyInto tag input = some v ∧ c.copyIntoMut tag input = some v := by
  have hvalue := materialize_eq c input h
  cases c with
  | tagged ir payload =>
    have hprove : ((tagged ir payload).prove .root tag input).value? = some () :=
      value?_prove (Represents.valid _ h)
    have hboth : (do
        let _ ← ((tagged ir payload).prove .root tag input).value?
        (tagged ir payload).materialize tag input) = some v := by
      rw [hprove]
      exact hvalue
    exact ⟨hboth, hboth⟩
  | array element n =>
    have hvalid := Represents.valid (array element n) h
    have hitems : collect (fun j : Fin n =>
        element.materialize 0 (input.child (elementPlace element j))) = some v :=
      collect_eq_some.mpr fun j => materialize_eq element (input.child (elementPlace element j)) (h j)
    constructor
    · rw [copyInto, ArrayRef.copyInto_of_valid hvalid]
      exact hitems
    · rw [copyIntoMut, ArrayMut.copyInto_of_valid hvalid]
      exact hitems
  | _ => exact ⟨hvalue, hvalue⟩

/-- The proof never gets to a branch that it calls unreachable. -/
theorem prove_ne_unreachable (c : Category) (h : c.Accepted) {ctx : Context}
    (hctx : ctx.Exact c.wire.size) (tag : ℕ) (input : Input c.wire) :
    c.prove ctx tag input ≠ .unreachable := by
  rw [prove_eq_firstErr c h hctx]
  cases c.faults tag input.bytes <;> simp [firstErr]

/-- Everything that a shared handle offers completes, here and behind every getter, and the value
that `copy_into` returns is the one that the getters return together. -/
structure Observable (c : Category) (tag : ℕ) (input : Input c.wire) : Prop where
  getters : ∀ d (sight : Sight c d), sight.look tag input ≠ none
  values : ∀ d (sight : Sight c d) tag' input', sight.look tag input = some (some (tag', input')) →
    ∃ v, d.gather tag' input' = some v ∧ d.copyInto tag' input' = some v ∧
      d.copyIntoMut tag' input' = some v
  elements : ∀ element n (sight : Sight c (array element n)) tag' input',
    sight.look tag input = some (some (tag', input')) → ∃ items : Fin n → Input element.wire,
      (∀ j : Fin n, ArrayRef.get element n input' j = some (some (items j)) ∧
        ArrayMut.get element n input' j = some (some (items j))) ∧
      ∀ calls, drain (ArrayRef.iterNext element n input') calls 0 =
          some ((List.ofFn items).take calls) ∧
        drain (ArrayMut.iterNext element n input') calls 0 = some ((List.ofFn items).take calls)

theorem observable_of_valid {c : Category} (hd : c.DistinctTags) {tag : ℕ} {input : Input c.wire}
    (h : c.Valid tag input.bytes) : c.Observable tag input := by
  constructor
  case getters =>
    intro d sight hnone
    obtain ⟨found, hfound, -⟩ := sight.look_valid hd h
    cases hnone.symm.trans hfound
  case values =>
    intro d sight tag' input' hlook
    obtain ⟨found, hfound, hvalid⟩ := sight.look_valid hd h
    have heq := Option.some.inj (hfound.symm.trans hlook)
    obtain ⟨v, hv⟩ := (d.valid_iff tag' input').mp (hvalid tag' input' heq).2
    exact ⟨v, gather_eq d input' hv, copyInto_eq d input' hv⟩
  case elements =>
    intro element n sight tag' input' hlook
    obtain ⟨found, hfound, hvalid⟩ := sight.look_valid hd h
    have heq := Option.some.inj (hfound.symm.trans hlook)
    have harray : (array element n).Valid 0 input'.bytes := (hvalid tag' input' heq).2
    refine ⟨fun j => input'.child (elementPlace element j), fun j => ?_, fun calls => ?_⟩
    · exact ⟨ArrayRef.get_of_valid harray j, ArrayMut.get_of_valid harray j⟩
    · exact ⟨ArrayRef.iter_of_valid harray calls, ArrayMut.iter_of_valid harray calls⟩

end Category

open Category

namespace Schema

theorem access_ne_unreachable [Target] (S : Schema) {n : ℕ} (s : Slice n) :
    S.access s ≠ .unreachable := by
  unfold access
  cases Input.fromChecked S.wire s with
  | error e =>
    intro h
    cases h
  | ok input =>
    have hroot : Context.root.Exact S.wire.size := .ofField input "" ""
    have hprove := prove_ne_unreachable S.category S.accepted hroot 0 input
    intro h
    change (S.category.prove .root 0 input >>= fun _ => _) = _ at h
    cases hcase : S.category.prove .root 0 input with
    | ok u =>
      rw [hcase] at h
      cases h
    | err e =>
      rw [hcase] at h
      cases h
    | unreachable => exact hprove hcase

section
attribute [local instance] Target.lp64

/-- The first path to the tag, after the payload was cleared through the second. -/
def staleSetting : Position holder.category setting :=
  .field secondVariant tagEnum_holderPayload (.variant firstVariant .here)

end

end Schema

end ZeroSchema
