import ZeroSchema.Schema.Wire

/-! What a wire means, apart from how the generated code reads it: which bytes are valid,
and which logical value valid bytes represent. -/
namespace ZeroSchema
open Storage

/-- The sibling tag a field is selected by; a field without a sibling needs none. -/
def StructIr.siblingTag (ir : StructIr) (load : Fin ir.arity → Option ℕ) (i : Fin ir.arity) :
    Option ℕ :=
  match ir.tagField i with
  | none => some 0
  | some t => load t

namespace Category

/-- The logical declaration of a category. -/
@[reducible] def Logical : Category → Type
  | primitive p _ => p.Value
  | bool => Bool
  | string s => s.Value
  | fixedBytes n => Bytes n
  | scalarEnum ir | tagSibling ir => ir.Value
  | struct ir fields => (i : Fin ir.arity) → Logical (fields i)
  | tagged ir payload => (k : Fin ir.arity) × Logical (payload k)
  | unit => Unit
  | array element n => Fin n → Logical element
  | optional _ inner => Option (Logical inner)

variable [Target]

def loadTag : (c : Category) → Bytes c.wire.size → Option ℕ
  | tagSibling ir, b => (ir.load b).map Fin.val
  | _, _ => none

/-- The tags that the bytes of a record store for its payloads. -/
def tagAt (ir : StructIr) (fields : Fin ir.arity → Category)
    (b : Bytes (struct ir fields).wire.size) (i : Fin ir.arity) : Option ℕ :=
  ir.siblingTag (fun t => (fields t).loadTag ((fieldPlace ir fields t).get b)) i

section
variable {ir : StructIr} {fields : Fin ir.arity → Category} {i : Fin ir.arity}

theorem tagAt_of_link {t : Fin ir.arity} (ht : ir.tagField i = some t)
    (b : Bytes (struct ir fields).wire.size) :
    tagAt ir fields b i = (fields t).loadTag ((fieldPlace ir fields t).get b) := by
  simp only [tagAt, StructIr.siblingTag, ht]

theorem tagAt_of_none (ht : ir.tagField i = none) (b : Bytes (struct ir fields).wire.size) :
    tagAt ir fields b i = some 0 := by
  simp only [tagAt, StructIr.siblingTag, ht]

end

/-- The bytes hold a value of the category; `tag` is the sibling tag of a tagged payload. -/
def Valid : (c : Category) → ℕ → Bytes c.wire.size → Prop
  | primitive _ _, _, _ | fixedBytes _, _, _ | unit, _, _ => True
  | bool, _, b => BoolWire.raw b = 0 ∨ BoolWire.raw b = 1
  | string s, _, b => s.Valid b
  | scalarEnum ir, _, b | tagSibling ir, _, b => WireInt.raw ir.endian b.toList ∈ ir.discriminants
  | struct ir fields, _, b => ∀ i, ∃ tag, tagAt ir fields b i = some tag ∧
      Valid (fields i) tag ((fieldPlace ir fields i).get b)
  | tagged ir payload, tag, b => ∃ k, ir.select tag = some k ∧
      Valid (payload k) 0 ((payloadPlace ir payload k).get b)
  | array element n, _, b => ∀ j : Fin n, Valid element 0 ((elementPlace element j).get b)
  | optional align inner, _, b => b.IsZero ∨ Valid inner 0 ((presentPlace align inner).get b)

private instance decidableExistsSome {α : Type} {p : α → Prop} [DecidablePred p] :
    (o : Option α) → Decidable (∃ a, o = some a ∧ p a)
  | none => isFalse (by rintro ⟨a, ha, -⟩; cases ha)
  | some a => decidable_of_iff (p a) (by simp)

instance decidableValid : (c : Category) → (tag : ℕ) → (b : Bytes c.wire.size) →
    Decidable (c.Valid tag b)
  | primitive _ _, _, _ | fixedBytes _, _, _ | unit, _, _ => inferInstanceAs (Decidable True)
  | bool, _, b => inferInstanceAs (Decidable (BoolWire.raw b = 0 ∨ BoolWire.raw b = 1))
  | string s, _, b => inferInstanceAs (Decidable (s.Valid b))
  | scalarEnum ir, _, b | tagSibling ir, _, b =>
    inferInstanceAs (Decidable (WireInt.raw ir.endian b.toList ∈ ir.discriminants))
  | struct ir fields, _, b =>
    have := fun i tag => decidableValid (fields i) tag ((fieldPlace ir fields i).get b)
    inferInstanceAs (Decidable (∀ i, ∃ tag, tagAt ir fields b i = some tag ∧
      Valid (fields i) tag ((fieldPlace ir fields i).get b)))
  | tagged ir payload, tag, b =>
    have := fun k => decidableValid (payload k) 0 ((payloadPlace ir payload k).get b)
    inferInstanceAs (Decidable (∃ k, ir.select tag = some k ∧
      Valid (payload k) 0 ((payloadPlace ir payload k).get b)))
  | array element n, _, b =>
    have := fun j : Fin n => decidableValid element 0 ((elementPlace element j).get b)
    inferInstanceAs (Decidable (∀ j : Fin n, Valid element 0 ((elementPlace element j).get b)))
  | optional align inner, _, b =>
    have := decidableValid inner 0 ((presentPlace align inner).get b)
    inferInstanceAs (Decidable (b.IsZero ∨ Valid inner 0 ((presentPlace align inner).get b)))

/-- The bytes hold exactly this value. -/
def Represents : (c : Category) → ℕ → Bytes c.wire.size → c.Logical → Prop
  | primitive p e, _, b, v => p.get e b = v
  | bool, _, b, v => BoolWire.decode (BoolWire.raw b) = some v
  | string s, _, b, v => s.decode b = .ok v
  | fixedBytes _, _, b, v => b = v
  | scalarEnum ir, _, b, v | tagSibling ir, _, b, v => ir.load b = some v
  | struct ir fields, _, b, v => ∀ i, ∃ tag, tagAt ir fields b i = some tag ∧
      Represents (fields i) tag ((fieldPlace ir fields i).get b) (v i)
  | tagged ir payload, tag, b, v => ir.select tag = some v.1 ∧
      Represents (payload v.1) 0 ((payloadPlace ir payload v.1).get b) v.2
  | unit, _, _, _ => True
  | array element n, _, b, v => ∀ j : Fin n,
      Represents element 0 ((elementPlace element j).get b) (v j)
  | optional _ _, _, b, none => b.IsZero
  | optional align inner, _, b, some v => ¬b.IsZero ∧
      Represents inner 0 ((presentPlace align inner).get b) v

/-- A tag that can be read is valid. -/
theorem valid_of_loadTag {c : Category} {tag : ℕ} {b : Bytes c.wire.size}
    (h : c.loadTag b = some tag) : c.Valid 0 b := by
  cases c with
  | tagSibling ir =>
    obtain ⟨v, hv, -⟩ := Option.map_eq_some_iff.mp h
    exact EnumIr.isSome_load.mp (Option.isSome_iff_exists.mpr ⟨v, hv⟩)
  | _ => cases h

theorem exists_loadTag {c : Category} {e : EnumIr} {b : Bytes c.wire.size}
    (hc : c.tagEnum = some e) (h : c.Valid 0 b) : ∃ v : e.Value, c.loadTag b = some v := by
  cases c with
  | tagSibling ir =>
    obtain rfl := Option.some.inj hc
    obtain ⟨v, hv⟩ := Option.isSome_iff_exists.mp (EnumIr.isSome_load.mpr h)
    exact ⟨v, Option.map_eq_some_iff.mpr ⟨v, hv, rfl⟩⟩
  | _ => cases hc

/-- Bytes represent at most one value. -/
theorem Represents.unique (c : Category) {tag : ℕ} {b : Bytes c.wire.size} {v w : c.Logical}
    (hv : c.Represents tag b v) (hw : c.Represents tag b w) : v = w := by
  induction c generalizing tag with
  | primitive p e => exact hv.symm.trans hw
  | bool => exact Option.some.inj (hv.symm.trans hw)
  | string s => exact Except.ok.inj (hv.symm.trans hw)
  | fixedBytes n => exact hv.symm.trans hw
  | scalarEnum ir => exact Option.some.inj (hv.symm.trans hw)
  | tagSibling ir => exact Option.some.inj (hv.symm.trans hw)
  | struct ir fields ih =>
    funext i
    obtain ⟨tag, htag, hvi⟩ := hv i
    obtain ⟨tag', htag', hwi⟩ := hw i
    obtain rfl := Option.some.inj (htag.symm.trans htag')
    exact ih i hvi hwi
  | tagged ir payload ih =>
    obtain ⟨k, v⟩ := v
    obtain ⟨l, w⟩ := w
    obtain rfl : k = l := Option.some.inj (hv.1.symm.trans hw.1)
    obtain rfl : v = w := ih k hv.2 hw.2
    rfl
  | unit => rfl
  | array element n ih => exact funext fun j => ih (hv j) (hw j)
  | optional align inner ih =>
    cases v with
    | none =>
      cases w with
      | none => rfl
      | some w => exact absurd hv hw.1
    | some v =>
      cases w with
      | none => exact absurd hw hv.1
      | some w => rw [ih hv.2 hw.2]

/-- The valid bytes are those that represent some value. -/
theorem valid_iff (c : Category) (tag : ℕ) (input : Input c.wire) :
    c.Valid tag input.bytes ↔ ∃ v, c.Represents tag input.bytes v := by
  induction c generalizing tag with
  | primitive p e => exact ⟨fun _ => ⟨_, rfl⟩, fun _ => trivial⟩
  | bool => rw [Valid, ← BoolWire.isSome_decode, Option.isSome_iff_exists]; rfl
  | string s => exact s.valid_iff input
  | fixedBytes n => exact ⟨fun _ => ⟨_, rfl⟩, fun _ => trivial⟩
  | scalarEnum ir => rw [Valid, ← EnumIr.isSome_load, Option.isSome_iff_exists]; rfl
  | tagSibling ir => rw [Valid, ← EnumIr.isSome_load, Option.isSome_iff_exists]; rfl
  | struct ir fields ih =>
    have hfield (i : Fin ir.arity) (tag : ℕ) :
        (fields i).Valid tag ((fieldPlace ir fields i).get input.bytes) ↔
          ∃ v, (fields i).Represents tag ((fieldPlace ir fields i).get input.bytes) v :=
      ih i tag (input.child (fieldPlace ir fields i))
    constructor
    · intro h
      choose tag htag hvalid using h
      choose v hv using fun i => (hfield i _).mp (hvalid i)
      exact ⟨v, fun i => ⟨tag i, htag i, hv i⟩⟩
    · rintro ⟨v, hv⟩ i
      obtain ⟨tag, htag, hvi⟩ := hv i
      exact ⟨tag, htag, (hfield i tag).mpr ⟨v i, hvi⟩⟩
  | tagged ir payload ih =>
    have hpayload (k : Fin ir.arity) := ih k 0 (input.child (payloadPlace ir payload k))
    constructor
    · rintro ⟨k, hk, hvalid⟩
      obtain ⟨v, hv⟩ := (hpayload k).mp hvalid
      exact ⟨⟨k, v⟩, hk, hv⟩
    · rintro ⟨⟨k, v⟩, hk, hv⟩
      exact ⟨k, hk, (hpayload k).mpr ⟨v, hv⟩⟩
  | unit => exact ⟨fun _ => ⟨(), trivial⟩, fun _ => trivial⟩
  | array element n ih =>
    have helement (j : Fin n) := ih 0 (input.child (elementPlace element j))
    constructor
    · intro h
      choose v hv using fun j => (helement j).mp (h j)
      exact ⟨v, hv⟩
    · rintro ⟨v, hv⟩ j
      exact (helement j).mpr ⟨v j, hv j⟩
  | optional align inner ih =>
    have hinner := ih 0 (input.child (presentPlace align inner))
    constructor
    · intro h
      by_cases hz : input.bytes.IsZero
      · exact ⟨none, hz⟩
      · obtain ⟨v, hv⟩ := hinner.mp (h.resolve_left hz)
        exact ⟨some v, hz, hv⟩
    · rintro ⟨v, hv⟩
      cases v with
      | none => exact Or.inl hv
      | some v => exact Or.inr (hinner.mpr ⟨v, hv.2⟩)

theorem Represents.valid (c : Category) {tag : ℕ} {input : Input c.wire} {v : c.Logical}
    (h : c.Represents tag input.bytes v) : c.Valid tag input.bytes :=
  (c.valid_iff tag input).mpr ⟨v, h⟩

end Category

end ZeroSchema
