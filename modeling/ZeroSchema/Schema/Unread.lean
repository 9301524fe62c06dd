import ZeroSchema.Schema.Fault
import ZeroSchema.Schema.Observe

/-! Bytes that no reader looks at: padding, the capacity behind a string, and what a payload leaves
of its union. Two wires that differ in nothing else have the same faults and the same value. -/
namespace ZeroSchema
open Storage Control

namespace Terminated
variable {α : Type} [OfNat α 0] [DecidableEq α] {l l' : List α}

/-- A terminator shows in what stands before it. -/
theorem mem_iff_of_takeWhile (hlength : l'.length = l.length)
    (h : l'.takeWhile (· ≠ 0) = l.takeWhile (· ≠ 0)) : 0 ∈ l' ↔ 0 ∈ l := by
  have key (l : List α) : 0 ∈ l ↔ (l.takeWhile (· ≠ 0)).length ≠ l.length := by
    constructor
    · intro hmem heq
      have hall := (List.takeWhile_prefix (p := (· ≠ 0)) (l := l)).eq_of_length heq
      have hzero := List.takeWhile_eq_self_iff.mp hall 0 hmem
      simp at hzero
    · intro hne
      by_contra hmem
      apply hne
      rw [List.takeWhile_eq_self_iff.mpr]
      intro x hx
      have hxne : x ≠ 0 := fun h0 => hmem (h0 ▸ hx)
      simpa using hxne
  rw [key, key, h, hlength]

theorem untilNul_eq_ok {s : Terminated α} :
    untilNul l = .ok s ↔ 0 ∈ l ∧ l.takeWhile (· ≠ 0) = s.units := by
  unfold untilNul
  split_ifs with hmem
  · rw [Except.ok.injEq, Terminated.ext_iff]
    exact ⟨fun h => ⟨hmem, h⟩, fun h => h.2⟩
  · simp [hmem]

end Terminated

namespace StringIr
variable [Target]

/-- Equal up to the capacity behind the active prefix or the first terminator. -/
def LogicalEq (s : StringIr) (b b' : Bytes s.wire.size) : Prop :=
  match s, b, b' with
  | str w e n, b, b' =>
    let length := (lenPlace w (byteData n)).get b
    (lenPlace w (byteData n)).get b' = length ∧
      ((dataPlace w (byteData n)).get b').toList.take (WireInt.raw e length.toList) =
        ((dataPlace w (byteData n)).get b).toList.take (WireInt.raw e length.toList)
  | cStr _, b, b' => b'.toList.takeWhile (· ≠ 0) = b.toList.takeWhile (· ≠ 0)
  | u16Str w e n, b, b' =>
    let length := (lenPlace w (unitData n)).get b
    (lenPlace w (unitData n)).get b' = length ∧
      (nativeUnits ((dataPlace w (unitData n)).get b').toList).take (WireInt.raw e length.toList) =
        (nativeUnits ((dataPlace w (unitData n)).get b).toList).take (WireInt.raw e length.toList)
  | u16CStr _, b, b' =>
    (nativeUnits b'.toList).takeWhile (· ≠ 0) = (nativeUnits b.toList).takeWhile (· ≠ 0)

theorem length_units {n : ℕ} (b b' : Bytes n) :
    (nativeUnits b'.toList).length = (nativeUnits b.toList).length := by
  rw [length_nativeUnits, length_nativeUnits, b'.length_eq, b.length_eq]

/-- A length prefix is determined by the length it stores. -/
theorem prefix_unique {w : WireInt} {e : WireEndian} {b b' : Bytes w.bytes}
    (h : WireInt.raw e b'.toList = WireInt.raw e b.toList) : b' = b := by
  rw [← WireInt.store_raw w e b', h, WireInt.store_raw]

instance (s : StringIr) (b b' : Bytes s.wire.size) : Decidable (s.LogicalEq b b') :=
  match s, b, b' with
  | str _ _ _, _, _ | u16Str _ _ _, _, _ => inferInstanceAs (Decidable (_ ∧ _))
  | cStr _, _, _ | u16CStr _, _, _ => inferInstanceAs (Decidable (_ = _))

variable {s : StringIr} {b b' : Bytes s.wire.size}

theorem LogicalEq.faultKind (h : s.LogicalEq b b') : s.faultKind b' = s.faultKind b := by
  cases s with
  | str w e n =>
    obtain ⟨hlength, hdata⟩ := h
    unfold StringIr.faultKind
    simp only [hlength, hdata]
  | cStr n =>
    have hmem : 0 ∈ b'.toList ↔ 0 ∈ b.toList :=
      Terminated.mem_iff_of_takeWhile (b'.length_eq.trans b.length_eq.symm) h
    unfold StringIr.faultKind
    simp only [hmem]
  | u16Str w e n =>
    obtain ⟨hlength, -⟩ := h
    unfold StringIr.faultKind
    simp only [hlength]
  | u16CStr n =>
    have hmem := Terminated.mem_iff_of_takeWhile (length_units b b') h
    unfold StringIr.faultKind
    simp only [hmem]

/-- What a string decodes to is in its logical bytes. -/
theorem LogicalEq.decode_eq_ok (h : s.LogicalEq b b') {v : s.Value} (hv : s.decode b = .ok v) :
    s.decode b' = .ok v := by
  cases s with
  | str w e n =>
    obtain ⟨hlength, hdata⟩ := h
    unfold StringIr.decode at hv ⊢
    rw [proveStr_eq_ok] at hv ⊢
    have hraw := (activeLength_eq_ok.mp hv.1).1
    rw [hraw] at hdata
    rw [hlength, hdata, Bytes.length_eq]
    rw [Bytes.length_eq] at hv
    exact hv
  | cStr n =>
    have hmem : 0 ∈ b'.toList ↔ 0 ∈ b.toList :=
      Terminated.mem_iff_of_takeWhile (b'.length_eq.trans b.length_eq.symm) h
    have hunits := Terminated.untilNul_eq_ok.mp hv
    exact Terminated.untilNul_eq_ok.mpr ⟨hmem.mpr hunits.1, h.trans hunits.2⟩
  | u16Str w e n =>
    obtain ⟨hlength, hdata⟩ := h
    unfold StringIr.decode at hv ⊢
    rw [proveU16Str_eq_ok] at hv ⊢
    have hraw := (activeLength_eq_ok.mp hv.1).1
    rw [hraw] at hdata
    rw [hlength, hdata, length_nativeUnits, Bytes.length_eq]
    rw [length_nativeUnits, Bytes.length_eq] at hv
    exact hv
  | u16CStr n =>
    have hmem := Terminated.mem_iff_of_takeWhile (length_units b b') h
    have hunits := Terminated.untilNul_eq_ok.mp hv
    exact Terminated.untilNul_eq_ok.mpr ⟨hmem.mpr hunits.1, h.trans hunits.2⟩

/-- And its logical bytes are in the value. -/
theorem logicalEq_of_decode {v : s.Value} (h : s.decode b = .ok v) (h' : s.decode b' = .ok v) :
    s.LogicalEq b b' := by
  cases s with
  | str w e n =>
    unfold StringIr.decode at h h'
    rw [proveStr_eq_ok] at h h'
    have hraw := (activeLength_eq_ok.mp h.1).1
    have hraw' := (activeLength_eq_ok.mp h'.1).1
    refine ⟨prefix_unique (hraw'.trans hraw.symm), ?_⟩
    rw [hraw, h.2, h'.2]
  | cStr n =>
    have hunits := (Terminated.untilNul_eq_ok.mp h).2
    have hunits' := (Terminated.untilNul_eq_ok.mp h').2
    exact hunits'.trans hunits.symm
  | u16Str w e n =>
    unfold StringIr.decode at h h'
    rw [proveU16Str_eq_ok] at h h'
    have hraw := (activeLength_eq_ok.mp h.1).1
    have hraw' := (activeLength_eq_ok.mp h'.1).1
    refine ⟨prefix_unique (hraw'.trans hraw.symm), ?_⟩
    rw [hraw, h.2, h'.2]
  | u16CStr n =>
    have hunits := (Terminated.untilNul_eq_ok.mp h).2
    have hunits' := (Terminated.untilNul_eq_ok.mp h').2
    exact hunits'.trans hunits.symm

end StringIr

namespace Category
variable [Target]

/-- Two wires of a category that differ at most in bytes that it does not read: those between and
behind the fields, behind an active string, and behind the selected payload in its union. An
optional's storage is read as a whole for its presence. -/
def LogicalEq : (c : Category) → ℕ → Bytes c.wire.size → Bytes c.wire.size → Prop
  | primitive _ _, _, b, b' | bool, _, b, b' | fixedBytes _, _, b, b' | scalarEnum _, _, b, b'
  | tagSibling _, _, b, b' => b' = b
  | string s, _, b, b' => s.LogicalEq b b'
  | struct ir fields, _, b, b' => ∀ i tag, tagAt ir fields b i = some tag →
    LogicalEq (fields i) tag ((fieldPlace ir fields i).get b) ((fieldPlace ir fields i).get b')
  | tagged ir payload, tag, b, b' => ∀ k, ir.select tag = some k →
    LogicalEq (payload k) 0 ((payloadPlace ir payload k).get b) ((payloadPlace ir payload k).get b')
  | unit, _, _, _ => True
  | array element n, _, b, b' => ∀ j : Fin n,
    LogicalEq element 0 ((elementPlace element j).get b) ((elementPlace element j).get b')
  | optional align inner, _, b, b' => b.IsZero ∧ b'.IsZero ∨ ¬b.IsZero ∧ ¬b'.IsZero ∧
    LogicalEq inner 0 ((presentPlace align inner).get b) ((presentPlace align inner).get b')

private instance decidableForallSome {α : Type} {p : α → Prop} [DecidablePred p] :
    (o : Option α) → Decidable (∀ a, o = some a → p a)
  | none => isTrue (by simp)
  | some a => decidable_of_iff (p a) (by simp)

instance decidableLogicalEq : (c : Category) → (tag : ℕ) → (b b' : Bytes c.wire.size) →
    Decidable (c.LogicalEq tag b b')
  | primitive _ _, _, b, b' | bool, _, b, b' | fixedBytes _, _, b, b' | scalarEnum _, _, b, b'
  | tagSibling _, _, b, b' => inferInstanceAs (Decidable (b' = b))
  | string s, _, b, b' => inferInstanceAs (Decidable (s.LogicalEq b b'))
  | struct ir fields, _, b, b' =>
    have := fun i tag => decidableLogicalEq (fields i) tag ((fieldPlace ir fields i).get b)
      ((fieldPlace ir fields i).get b')
    inferInstanceAs (Decidable (∀ i tag, tagAt ir fields b i = some tag →
      LogicalEq (fields i) tag ((fieldPlace ir fields i).get b) ((fieldPlace ir fields i).get b')))
  | tagged ir payload, tag, b, b' =>
    have := fun k => decidableLogicalEq (payload k) 0 ((payloadPlace ir payload k).get b)
      ((payloadPlace ir payload k).get b')
    inferInstanceAs (Decidable (∀ k, ir.select tag = some k → LogicalEq (payload k) 0
      ((payloadPlace ir payload k).get b) ((payloadPlace ir payload k).get b')))
  | unit, _, _, _ => inferInstanceAs (Decidable True)
  | array element n, _, b, b' =>
    have := fun j : Fin n => decidableLogicalEq element 0 ((elementPlace element j).get b)
      ((elementPlace element j).get b')
    inferInstanceAs (Decidable (∀ j : Fin n, LogicalEq element 0
      ((elementPlace element j).get b) ((elementPlace element j).get b')))
  | optional align inner, _, b, b' =>
    have := decidableLogicalEq inner 0 ((presentPlace align inner).get b)
      ((presentPlace align inner).get b')
    inferInstanceAs (Decidable (b.IsZero ∧ b'.IsZero ∨ ¬b.IsZero ∧ ¬b'.IsZero ∧
      LogicalEq inner 0 ((presentPlace align inner).get b) ((presentPlace align inner).get b')))

theorem LogicalEq.eq {c : Category} {b b' : Bytes c.wire.size} (h : c.LogicalEq 0 b b')
    (hc : c.tagEnum.isSome) : b' = b := by
  cases c with
  | tagSibling ir => exact h
  | _ => cases hc

section Record
variable {ir : StructIr} {fields : Fin ir.arity → Category} {tag : ℕ}
  {b b' : Bytes (struct ir fields).wire.size}

/-- A tag sibling is a field that is always read. -/
theorem LogicalEq.sibling (h : (struct ir fields).LogicalEq tag b b') (hlink : ir.Linked fields)
    {t : Fin ir.arity} (ht : (fields t).tagEnum.isSome) :
    (fieldPlace ir fields t).get b' = (fieldPlace ir fields t).get b := by
  refine LogicalEq.eq (h t 0 ?_) ht
  unfold tagAt StructIr.siblingTag
  rw [hlink.tagField_sibling ht]

/-- The tags of a record are read, so they are the same. -/
theorem LogicalEq.tagAt (h : (struct ir fields).LogicalEq tag b b') (hlink : ir.Linked fields)
    (i : Fin ir.arity) : tagAt ir fields b' i = tagAt ir fields b i := by
  unfold Category.tagAt StructIr.siblingTag
  cases ht : ir.tagField i with
  | none => rfl
  | some t =>
    have hsame := h.sibling hlink (hlink.tagEnum_isSome ht)
    exact congrArg (fields t).loadTag hsame

end Record

/-- Logically equal wires have the same faults. -/
theorem LogicalEq.faults {c : Category} (hacc : c.Accepted) {tag : ℕ} {b b' : Bytes c.wire.size}
    (h : c.LogicalEq tag b b') : c.faults tag b' = c.faults tag b := by
  induction c generalizing tag with
  | primitive | unit | fixedBytes => rfl
  | bool | scalarEnum | tagSibling =>
    obtain rfl : b' = b := h
    rfl
  | string s =>
    rw [Category.faults, Category.faults, StringIr.LogicalEq.faultKind h]
  | struct ir fields ih =>
    rw [Category.faults, Category.faults]
    congr 1
    funext i
    unfold fieldFaults
    cases ht : ir.tagField i with
    | none =>
      have htag : Category.tagAt ir fields b i = some 0 := by
        unfold Category.tagAt StructIr.siblingTag
        rw [ht]
      simp only [ih i (hacc.1 i).1 (h i 0 htag)]
    | some t =>
      simp only [h.sibling hacc.2.1 (hacc.2.1.tagEnum_isSome ht)]
      cases hload : (fields t).loadTag ((fieldPlace ir fields t).get b) with
      | none => rfl
      | some tag =>
        have htag : Category.tagAt ir fields b i = some tag := by
          unfold Category.tagAt StructIr.siblingTag
          rw [ht]
          exact hload
        simp only [ih i (hacc.1 i).1 (h i tag htag)]
  | tagged ir payload ih =>
    rw [Category.faults, Category.faults]
    cases hk : ir.select tag with
    | none => rfl
    | some k => simp only [ih k (hacc.1 k).1 (h k hk)]
  | array element n ih =>
    rw [Category.faults, Category.faults]
    congr 1
    funext j
    rw [ih hacc.1 (h j)]
  | optional align inner ih =>
    rw [Category.faults, Category.faults]
    rcases h with ⟨hz, hz'⟩ | ⟨hz, hz', hvalue⟩
    · rw [if_pos hz, if_pos hz']
    · rw [if_neg hz, if_neg hz', ih hacc.1 hvalue]

/-- They hold the same value, if any. -/
theorem LogicalEq.represents {c : Category} (hacc : c.Accepted) {tag : ℕ}
    {b b' : Bytes c.wire.size} (h : c.LogicalEq tag b b') {v : c.Logical}
    (hv : c.Represents tag b v) : c.Represents tag b' v := by
  induction c generalizing tag with
  | primitive | fixedBytes | bool | scalarEnum | tagSibling =>
    obtain rfl : b' = b := h
    exact hv
  | string s => exact StringIr.LogicalEq.decode_eq_ok h hv
  | struct ir fields ih =>
    intro i
    obtain ⟨tag, htag, hvi⟩ := hv i
    exact ⟨tag, (h.tagAt hacc.2.1 i).trans htag, ih i (hacc.1 i).1 (h i tag htag) hvi⟩
  | tagged ir payload ih =>
    obtain ⟨k, v⟩ := v
    exact ⟨hv.1, ih k (hacc.1 k).1 (h k hv.1) hv.2⟩
  | unit => trivial
  | array element n ih => exact fun j => ih hacc.1 (h j) (hv j)
  | optional align inner ih =>
    cases v with
    | none =>
      rcases h with ⟨-, hz'⟩ | ⟨hz, -⟩
      · exact hz'
      · exact absurd hv hz
    | some v =>
      rcases h with ⟨hz, -⟩ | ⟨-, hz', hvalue⟩
      · exact absurd hz hv.1
      · exact ⟨hz', ih hacc.1 hvalue hv.2⟩

/-- A stored tag is the one of the value. -/
theorem loadTag_unique {c : Category} {tag tag' : ℕ} {b b' : Bytes c.wire.size}
    {v : c.Logical} (h : c.Represents tag b v) (h' : c.Represents tag' b' v) :
    c.loadTag b' = c.loadTag b := by
  cases c with
  | tagSibling ir =>
    have hload : ir.load b' = ir.load b := Eq.trans h' (Eq.symm h)
    exact congrArg (Option.map Fin.val) hload
  | _ => rfl

theorem tagAt_unique {ir : StructIr} {fields : Fin ir.arity → Category} {tag tag' : ℕ}
    {b b' : Bytes (struct ir fields).wire.size} {v : (struct ir fields).Logical}
    (h : (struct ir fields).Represents tag b v) (h' : (struct ir fields).Represents tag' b' v)
    (i : Fin ir.arity) : tagAt ir fields b' i = tagAt ir fields b i := by
  unfold tagAt StructIr.siblingTag
  cases ir.tagField i with
  | none => rfl
  | some t =>
    obtain ⟨_, -, ht⟩ := h t
    obtain ⟨_, -, ht'⟩ := h' t
    exact loadTag_unique ht ht'

/-- Wires that hold the same value are logically equal. -/
theorem logicalEq_of_represents {c : Category} {tag : ℕ} {b b' : Bytes c.wire.size}
    {v : c.Logical} (h : c.Represents tag b v) (h' : c.Represents tag b' v) :
    c.LogicalEq tag b b' := by
  induction c generalizing tag with
  | primitive p e =>
    have hget : p.get e b' = p.get e b := Eq.trans h' h.symm
    rw [← p.storePreflighted_get e b', hget, p.storePreflighted_get]
    exact rfl
  | bool =>
    rw [← BoolWire.storePreflighted_of_decode h, ← BoolWire.storePreflighted_of_decode h']
    exact rfl
  | string s => exact StringIr.logicalEq_of_decode h h'
  | fixedBytes n => exact Eq.trans h' h.symm
  | scalarEnum ir =>
    rw [← EnumIr.commit_of_load h, ← EnumIr.commit_of_load h']
    exact rfl
  | tagSibling ir =>
    rw [← EnumIr.commit_of_load h, ← EnumIr.commit_of_load h']
    exact rfl
  | struct ir fields ih =>
    intro i tag htag
    obtain ⟨now, hnow, hvi⟩ := h i
    obtain rfl := Option.some.inj (htag.symm.trans hnow)
    obtain ⟨now', hnow', hvi'⟩ := h' i
    have hsame := tagAt_unique h h' i
    obtain rfl := Option.some.inj (hnow'.symm.trans (hsame.trans htag))
    exact ih i hvi hvi'
  | tagged ir payload ih =>
    obtain ⟨k, v⟩ := v
    intro l hl
    obtain rfl := Option.some.inj (hl.symm.trans h.1)
    exact ih l h.2 h'.2
  | unit => trivial
  | array element n ih => exact fun j => ih (h j) (h' j)
  | optional align inner ih =>
    cases v with
    | none => exact Or.inl ⟨h, h'⟩
    | some v => exact Or.inr ⟨h.1, h'.1, ih h.2 h'.2⟩

end Category

end ZeroSchema
