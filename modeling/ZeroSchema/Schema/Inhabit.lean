import ZeroSchema.Schema.ZeroWire
import ZeroSchema.Library.Span

/-! Every accepted declaration has a value, and a record can be put together from any values
of its fields, whatever its padding holds. -/
namespace ZeroSchema
open Storage Control

namespace Category

/-- A tag that a record may store for the category; other categories than payloads need none. -/
def TagOf (c : Category) (tag : ℕ) : Prop :=
  (∀ e, c.payloadEnum = some e → tag < e.arity) ∧ (c.payloadEnum = none → tag = 0)

theorem tagOf_zero {c : Category} (h : c.payloadEnum = none) : c.TagOf 0 := by
  constructor
  · intro e he
    rw [h] at he
    cases he
  · intro _
    rfl

variable [Target]

/-- A tag sibling can store any tag of its enum. -/
theorem exists_sibling {c : Category} {e : EnumIr} (hc : c.tagEnum = some e) {n : ℕ}
    (h : n < e.arity) (tag : ℕ) :
    ∃ (b : Bytes c.wire.size) (v : c.Logical), c.Represents tag b v ∧ c.loadTag b = some n := by
  cases c with
  | tagSibling ir =>
    obtain rfl := Option.some.inj hc
    have hload := EnumIr.load_commit (⟨n, h⟩ : ir.Value)
    refine ⟨ir.commit ⟨n, h⟩, ⟨n, h⟩, hload, ?_⟩
    rw [loadTag, hload]
    rfl
  | _ => cases hc

section Record
variable {ir : StructIr} {fields : Fin ir.arity → Category}

/-- The tags go to the siblings, everything else is as given. -/
theorem exists_record (hlinked : ir.Linked fields) {tags : Fin ir.arity → ℕ}
    (htags : ∀ i, (fields i).TagOf (tags i)) {x : (i : Fin ir.arity) → Bytes (fields i).wire.size}
    {v : (i : Fin ir.arity) → (fields i).Logical}
    (hx : ∀ i, (fields i).Represents (tags i) (x i) (v i))
    (padding : Bytes (struct ir fields).wire.size) :
    ∃ (b : Bytes (struct ir fields).wire.size) (w : (struct ir fields).Logical),
      (∀ tag, (struct ir fields).Represents tag b w) ∧
      (∀ i, tagAt ir fields b i = some (tags i)) ∧
      (∀ i, (fields i).tagEnum = none → (fieldPlace ir fields i).get b = x i ∧ w i = v i) ∧
      AgreeOn Bytes.view (⋃ i, (fieldPlace ir fields i).region)ᶜ padding b := by
  have hcontent (i : Fin ir.arity) : ∃ (y : Bytes (fields i).wire.size) (w : (fields i).Logical),
      (fields i).Represents (tags i) y w ∧ ((fields i).tagEnum = none → y = x i ∧ w = v i) ∧
      ∀ j, ir.tagField j = some i → (fields i).loadTag y = some (tags j) := by
    cases he : (fields i).tagEnum with
    | none =>
      refine ⟨x i, v i, hx i, fun _ => ⟨rfl, rfl⟩, fun j hj => ?_⟩
      have hsome := hlinked.tagEnum_isSome hj
      rw [he] at hsome
      cases hsome
    | some e =>
      obtain ⟨j, hj⟩ := hlinked.owner i (by rw [he]; rfl)
      have hpayload : (fields j).payloadEnum = some e := (hlinked.link j i hj).2.symm.trans he
      obtain ⟨y, w, hw, hload⟩ := exists_sibling he ((htags j).1 e hpayload) (tags i)
      refine ⟨y, w, hw, ?_, ?_⟩
      · intro h
        cases h
      · intro k hk
        rw [hload, hlinked.unique k j i hk hj]
  choose y w hw hsame hload using hcontent
  obtain ⟨b, hget, hframe⟩ := exists_get (fun i => (fieldPlace ir fields i).toCell)
    (fun i j hij => fieldPlace_disjoint ir fields hij) padding y
  have htagAt (i : Fin ir.arity) : tagAt ir fields b i = some (tags i) := by
    cases ht : ir.tagField i with
    | none => rw [tagAt_of_none ht, (htags i).2 (hlinked.payloadEnum_eq_none ht)]
    | some t => rw [tagAt_of_link ht, hget t, hload t i ht]
  refine ⟨b, w, fun tag i => ⟨tags i, htagAt i, ?_⟩, htagAt, fun i hi => ?_, hframe⟩
  · rw [hget i]
    exact hw i
  · rw [hget i]
    exact hsame i hi

end Record

theorem size_le_of_place {W F : Layout} (p : Place W F) (h : W.size ≤ isizeMax) :
    F.size ≤ isizeMax := ((Nat.le_add_left _ _).trans p.bound).trans h

/-- All elements of an array can be alike. -/
theorem exists_array {element : Category} {n : ℕ} {x : Bytes element.wire.size}
    {v : element.Logical} (hx : element.Represents 0 x v) (tag : ℕ) :
    ∃ b : Bytes (array element n).wire.size,
      (array element n).Represents tag b (fun _ => v) ∧
      ∀ j : Fin n, (elementPlace element j).get b = x := by
  obtain ⟨b, hget, -⟩ := exists_get (fun j : Fin n => (elementPlace element j).toCell)
    (fun i j hij => elementPlace_disjoint element hij) (Bytes.zero _) fun _ => x
  refine ⟨b, fun j => ?_, hget⟩
  rw [hget j]
  exact hx

/-- A present value of an optional, whatever the storage around it holds. -/
theorem exists_present {align : Option Alignment} {inner : Category}
    (hacc : (optional align inner).Accepted) (hfits : inner.wire.size ≤ isizeMax)
    {x : Bytes inner.wire.size} {v : inner.Logical} (hx : inner.Represents 0 x v) (tag : ℕ) :
    ∃ b : Bytes (optional align inner).wire.size,
      (optional align inner).Represents tag b (some v) ∧ (presentPlace align inner).get b = x := by
  have hvalid : inner.Valid 0 x :=
    (inner.valid_iff 0 ⟨0, x, Nat.dvd_zero _, hfits⟩).mpr ⟨v, hx⟩
  have hget := (presentPlace align inner).get_put (Bytes.zero _) x
  refine ⟨(presentPlace align inner).put (Bytes.zero _) x, ⟨?_, ?_⟩, hget⟩
  · apply not_isZero_of_valid hacc
    rw [hget]
    exact hvalid
  · rw [hget]
    exact hx

/-- A declaration that analysis accepts has a value, under some tag. -/
theorem exists_represents (c : Category) (hacc : c.Accepted) (hfits : c.wire.size ≤ isizeMax) :
    ∃ (tag : ℕ) (b : Bytes c.wire.size) (v : c.Logical), c.TagOf tag ∧ c.Represents tag b v := by
  induction c with
  | primitive p e => exact ⟨0, Bytes.zero _, _, tagOf_zero rfl, rfl⟩
  | bool =>
    exact ⟨0, BoolWire.storePreflighted false, false, tagOf_zero rfl,
      BoolWire.decode_storePreflighted false⟩
  | string s =>
    obtain ⟨v, hv⟩ := (s.valid_iff ⟨0, Bytes.zero _, Nat.dvd_zero _, hfits⟩).mp
      (StringIr.valid_zero hacc)
    exact ⟨0, Bytes.zero _, v, tagOf_zero rfl, hv⟩
  | fixedBytes n => exact ⟨0, Bytes.zero _, _, tagOf_zero rfl, rfl⟩
  | scalarEnum ir =>
    have v : ir.Value := ⟨0, List.length_pos_of_ne_nil ir.nonempty⟩
    exact ⟨0, ir.commit v, v, tagOf_zero rfl, EnumIr.load_commit v⟩
  | tagSibling ir =>
    have v : ir.Value := ⟨0, List.length_pos_of_ne_nil ir.nonempty⟩
    exact ⟨0, ir.commit v, v, tagOf_zero rfl, EnumIr.load_commit v⟩
  | struct ir fields ih =>
    choose tags x v htags hx using fun i =>
      ih i (hacc.1 i).1 (size_le_of_place (fieldPlace ir fields i) hfits)
    obtain ⟨b, w, hw, -⟩ := exists_record hacc.2.1 htags hx (Bytes.zero _)
    exact ⟨0, b, w, tagOf_zero rfl, hw 0⟩
  | tagged ir payload ih =>
    have first : Fin ir.arity := ⟨0, Nat.pos_of_ne_zero hacc.2.1⟩
    cases hsel : ir.select (ir.tag first) with
    | none => exact absurd rfl (ir.select_eq_none.mp hsel first)
    | some k =>
      obtain ⟨tag, x, v, htag, hx⟩ :=
        ih k (hacc.1 k).1 (size_le_of_place (payloadPlace ir payload k) hfits)
      have hnone := payloadEnum_eq_none (Or.inl (hacc.1 k).2)
      obtain rfl := htag.2 hnone
      have hget := (payloadPlace ir payload k).get_put (Bytes.zero _) x
      refine ⟨ir.tag first, (payloadPlace ir payload k).put (Bytes.zero _) x, ⟨k, v⟩, ⟨?_, ?_⟩,
        hsel, ?_⟩
      · intro e he
        obtain rfl := Option.some.inj he
        exact (ir.tag first).isLt
      · intro h
        cases h
      · rw [hget]
        exact hx
  | unit => exact ⟨0, Bytes.zero _, (), tagOf_zero rfl, trivial⟩
  | array element n ih =>
    have hpos : 0 < n := Nat.pos_of_ne_zero hacc.2.2
    obtain ⟨tag, x, v, htag, hx⟩ :=
      ih hacc.1 (size_le_of_place (elementPlace element (⟨0, hpos⟩ : Fin n)) hfits)
    obtain rfl := htag.2 (payloadEnum_eq_none (Or.inr (Or.inl hacc.2.1)))
    obtain ⟨b, hb, -⟩ := exists_array (n := n) hx 0
    exact ⟨0, b, fun _ => v, tagOf_zero rfl, hb⟩
  | optional align inner ih => exact ⟨0, Bytes.zero _, none, tagOf_zero rfl, Bytes.isZero_zero⟩

end Category

end ZeroSchema
