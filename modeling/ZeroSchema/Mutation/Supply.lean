import ZeroSchema.Mutation.Accept
import ZeroSchema.Mutation.Blame

/-! Patches that are rejected for nothing: every entry fits, and wherever there is no value to
start from the patch is complete. -/
namespace ZeroSchema
open Storage Control

namespace Category
variable [Target]

/-- Every part of the patch that initializes a value is complete, and every payload that it
updates has a tag to start from. -/
def Supplies : (c : Category) → Bool → ℕ → Bytes c.wire.size → c.Patch → Prop
  | struct ir fields, initializing, _, b, p =>
    ∀ i, (fields i).tagEnum = none → ∀ entry, p i = some entry →
      ∃ current, Current ir fields initializing b i current ∧
        Supplies (fields i) initializing current ((fieldPlace ir fields i).get b) entry
  | tagged ir payload, initializing, tag, b, ⟨k, p⟩ =>
    let initializing := initializing || decide (tag ≠ ir.tag k)
    (initializing = true → (payload k).isComplete p = true) ∧
      Supplies (payload k) initializing 0 ((payloadPlace ir payload k).get b) p
  | optional _ _, _, _, _, none => True
  | optional align inner, initializing, _, b, some p =>
    let initializing := initializing || decide b.IsZero
    (initializing = true → inner.isComplete p = true) ∧
      Supplies inner initializing 0 ((presentPlace align inner).get b) p
  | array element n, initializing, tag, b, v =>
    (array element n).logicalBlame initializing tag b v = none
  | primitive _ _, _, _, _, _ | bool, _, _, _, _ | string _, _, _, _, _ | fixedBytes _, _, _, _, _
  | scalarEnum _, _, _, _, _ | tagSibling _, _, _, _, _ | unit, _, _, _, _ => True

omit [Target] in
theorem childBlame_eq_none {c : Category} {kind : ErrorKind} {b : Option Blame} :
    c.childBlame kind b = none ↔ b = none := by
  unfold childBlame
  split_ifs <;> simp

omit [Target] in
theorem incomplete_eq_none {c : Category} {p : c.Patch} {initializing : Bool} {blame : Blame}
    {others : Option Blame} : c.incomplete p initializing blame others = none ↔
      (initializing = true → c.isComplete p = true) ∧ others = none := by
  cases initializing <;> cases hp : c.isComplete p <;> simp [incomplete, hp]

omit [Target] in
theorem misfit_eq_none {s : StringIr} {v : s.Value} : s.misfit v = none ↔ s.Fits v := by
  rw [← StringIr.check_eq_ok]
  unfold StringIr.misfit
  cases s.check v <;> simp

section Record
variable {ir : StructIr} {fields : Fin ir.arity → Category} {initializing : Bool}
  {b : Bytes (struct ir fields).wire.size} {i : Fin ir.arity}

theorem currentAt_eq_some {current : ℕ} : currentAt ir fields initializing b i = some current ↔
    Current ir fields initializing b i current := by
  unfold currentAt Current
  split_ifs
  · rw [Option.some.injEq, eq_comm]
  · exact Iff.rfl

/-- A check from the current tag has nothing to blame when the tag can be read and the check has
nothing to blame. -/
theorem current_eq_none {blame : ℕ → Option Blame} :
    (match currentAt ir fields initializing b i with
      | none => some (.leaf .unknownEnumValue)
      | some current => blame current) = none ↔
    ∃ current, Current ir fields initializing b i current ∧ blame current = none := by
  cases hcurrent : currentAt ir fields initializing b i with
  | none =>
    have hnot (current : ℕ) : ¬Current ir fields initializing b i current := by
      intro h
      rw [currentAt_eq_some.mpr h] at hcurrent
      cases hcurrent
    simp [hnot]
  | some now =>
    have hnow := currentAt_eq_some.mp hcurrent
    constructor
    · intro h
      exact ⟨now, hnow, h⟩
    · rintro ⟨current, h, hblame⟩
      have heq : some now = some current := hcurrent.symm.trans (currentAt_eq_some.mpr h)
      rw [Option.some.inj heq]
      exact hblame

theorem logicalFieldBlame_eq_none (hi : (fields i).tagEnum = none)
    {blame : (i : Fin ir.arity) → ℕ → Bytes (fields i).wire.size → (fields i).Logical →
      Option Blame} {v : (struct ir fields).Logical}
    (h : logicalFieldBlame ir fields initializing b blame v i = none) :
    (∀ t, ir.tagField i = some t → (fields t).storedTag (v t) = (fields i).logicalTag (v i)) ∧
      ∃ current, blame i current ((fieldPlace ir fields i).get b) (v i) = none := by
  have hskip : (fields i).tagEnum.isSome = false := by rw [hi]; rfl
  unfold logicalFieldBlame at h
  simp only [hskip, Bool.false_eq_true, if_false] at h
  cases ht : ir.tagField i with
  | none =>
    rw [ht] at h
    exact ⟨by simp, 0, childBlame_eq_none.mp h⟩
  | some t =>
    rw [ht] at h
    simp only at h
    split_ifs at h with htag
    obtain ⟨current, -, hblame⟩ := current_eq_none.mp h
    refine ⟨?_, current, childBlame_eq_none.mp hblame⟩
    rintro _ ⟨⟩
    exact not_not.mp htag

theorem patchFieldBlame_eq_none (hlink : ir.Linked fields) (hi : (fields i).tagEnum = none)
    {blame : (i : Fin ir.arity) → ℕ → Bytes (fields i).wire.size → (fields i).Patch →
      Option Blame} {p : (struct ir fields).Patch} :
    patchFieldBlame ir fields initializing b blame p i = none ↔
      (∀ t, ir.tagField i = some t → ∀ tag, p t = some tag →
        ∃ entry, p i = some entry ∧ (fields t).entryTag tag = (fields i).patchTag entry) ∧
      ∀ entry, p i = some entry → ∃ current, Current ir fields initializing b i current ∧
        blame i current ((fieldPlace ir fields i).get b) entry = none := by
  have hskip : (fields i).tagEnum.isSome = false := by rw [hi]; rfl
  unfold patchFieldBlame
  simp only [hskip, Bool.false_eq_true, if_false]
  cases ht : ir.tagField i with
  | none =>
    have hzero := current_of_none initializing b ht
    have hpay := hlink.payloadEnum_eq_none ht
    cases p i with
    | none => simp
    | some entry =>
      have hcurrent : (∃ current, Current ir fields initializing b i current ∧
          blame i current ((fieldPlace ir fields i).get b) entry = none) ↔
          blame i 0 ((fieldPlace ir fields i).get b) entry = none := by
        constructor
        · rintro ⟨current, hnow, hblame⟩
          rwa [hnow.eq_zero hlink hpay] at hblame
        · intro hblame
          exact ⟨0, hzero, hblame⟩
      simp [childBlame_eq_none, hcurrent]
  | some t =>
    cases hpt : p t with
    | none =>
      cases hpi : p i with
      | none => simp [hpt]
      | some entry =>
        simp only [hpt, Option.any_none, Bool.false_eq_true, if_false, Option.some.injEq,
          forall_eq', reduceCtorEq, false_implies, implies_true, true_and]
        exact current_eq_none.trans
          (exists_congr fun current => and_congr_right fun _ => childBlame_eq_none)
    | some tag =>
      cases hpi : p i with
      | none => simp [hpt]
      | some entry =>
        by_cases heq : (fields t).entryTag tag = (fields i).patchTag entry
        · simp only [hpt, heq, Option.any_some, bne_self_eq_false, Bool.false_eq_true, if_false,
            Option.some.injEq, forall_eq', exists_eq_left', true_and]
          exact current_eq_none.trans
            (exists_congr fun current => and_congr_right fun _ => childBlame_eq_none)
        · simp [hpt, heq]

end Record

theorem fits_of_logicalBlame {c : Category} (h : c.Accepted) {initializing : Bool} {tag : ℕ}
    {b : Bytes c.wire.size} {v : c.Logical} (hnone : c.logicalBlame initializing tag b v = none) :
    c.Fits v := by
  induction c generalizing initializing tag with
  | primitive | bool | fixedBytes | scalarEnum | tagSibling | unit => trivial
  | string s =>
    rw [logicalBlame, Option.map_eq_none_iff] at hnone
    exact misfit_eq_none.mp hnone
  | struct ir fields ih =>
    rw [logicalBlame, List.findSome?_eq_none_iff] at hnone
    constructor
    · intro i t ht
      have hi := h.2.1.tagEnum_eq_none ht
      exact (logicalFieldBlame_eq_none hi (hnone i (List.mem_finRange i))).1 t ht
    · intro i
      cases hi : (fields i).tagEnum with
      | none =>
        obtain ⟨-, current, hblame⟩ := logicalFieldBlame_eq_none hi (hnone i (List.mem_finRange i))
        exact ih i (h.1 i).1 hblame
      | some e => exact fits_of_tagEnum (by rw [hi]; rfl) _
  | tagged ir payload ih =>
    obtain ⟨k, v⟩ := v
    rw [logicalBlame, Option.map_eq_none_iff] at hnone
    exact ih k (h.1 k).1 hnone
  | array element n ih =>
    rw [logicalBlame, List.findSome?_eq_none_iff] at hnone
    intro j
    exact ih h.1 (childBlame_eq_none.mp (hnone j (List.mem_finRange j)))
  | optional align inner ih =>
    cases v with
    | none => trivial
    | some v => exact ih h.1 (childBlame_eq_none.mp hnone)

/-- A patch is rejected when an entry does not fit, or when a part that initializes a value is
incomplete. -/
theorem patchBlame_eq_none {c : Category} (h : c.Accepted) {initializing : Bool} {tag : ℕ}
    {b : Bytes c.wire.size} {p : c.Patch} : c.patchBlame initializing tag b p = none ↔
      c.PatchFits p ∧ c.Supplies initializing tag b p := by
  induction c generalizing initializing tag with
  | primitive | bool | fixedBytes | scalarEnum | tagSibling | unit =>
    exact ⟨fun _ => ⟨trivial, trivial⟩, fun _ => rfl⟩
  | string s =>
    rw [patchBlame, Option.map_eq_none_iff, misfit_eq_none]
    exact ⟨fun hfits => ⟨hfits, trivial⟩, fun hfits => hfits.1⟩
  | struct ir fields ih =>
    rw [patchBlame, List.findSome?_eq_none_iff]
    constructor
    · intro hall
      have hfield (i : Fin ir.arity) (hi : (fields i).tagEnum = none) :=
        (patchFieldBlame_eq_none h.2.1 hi).mp (hall i (List.mem_finRange i))
      refine ⟨⟨fun i t ht => (hfield i (h.2.1.tagEnum_eq_none ht)).1 t ht, ?_⟩, ?_⟩
      · intro i entry hp
        cases hi : (fields i).tagEnum with
        | none =>
          obtain ⟨current, -, hblame⟩ := (hfield i hi).2 entry hp
          exact ((ih i (h.1 i).1).mp hblame).1
        | some e => exact patchFits_sibling (by rw [hi]; rfl) entry
      · intro i hi entry hp
        obtain ⟨current, hcurrent, hblame⟩ := (hfield i hi).2 entry hp
        exact ⟨current, hcurrent, ((ih i (h.1 i).1).mp hblame).2⟩
    · intro hboth i _
      cases hi : (fields i).tagEnum with
      | none =>
        rw [patchFieldBlame_eq_none h.2.1 hi]
        refine ⟨hboth.1.1 i, fun entry hp => ?_⟩
        obtain ⟨current, hcurrent, hsupplies⟩ := hboth.2 i hi entry hp
        exact ⟨current, hcurrent, (ih i (h.1 i).1).mpr ⟨hboth.1.2 i entry hp, hsupplies⟩⟩
      | some e =>
        have hskip : (fields i).tagEnum.isSome := by rw [hi]; rfl
        exact if_pos hskip
  | tagged ir payload ih =>
    obtain ⟨k, p⟩ := p
    rw [patchBlame, incomplete_eq_none, Option.map_eq_none_iff, ih k (h.1 k).1]
    exact and_left_comm
  | array element n =>
    constructor
    · intro hnone
      exact ⟨fits_of_logicalBlame h hnone, hnone⟩
    · intro hboth
      exact hboth.2
  | optional align inner ih =>
    cases p with
    | none => exact ⟨fun _ => ⟨trivial, trivial⟩, fun _ => rfl⟩
    | some p =>
      rw [patchBlame, incomplete_eq_none, childBlame_eq_none, ih h.1]
      exact and_left_comm

end Category

end ZeroSchema
