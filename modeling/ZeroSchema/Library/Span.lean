import ZeroSchema.Library.Bytes

/-! Checked reads of plain byte lists, for a reader that knows offsets and sizes but not the
types they come from, and byte strings with prescribed cells. -/
namespace Storage
open Control

/-- `size` bytes from an offset, when there are as many. -/
def span (bytes : List UInt8) (offset size : ℕ) : Option (List UInt8) :=
  if offset + size ≤ bytes.length then some ((bytes.drop offset).take size) else none

/-- Nothing but zeros. -/
def AllZero (bytes : List UInt8) : Prop := ∀ x ∈ bytes, x = 0

instance (bytes : List UInt8) : Decidable (AllZero bytes) := List.decidableBAll _ _

section
variable {n m : ℕ} {s x : List UInt8} {b : Bytes n}

theorem span_eq_some {offset size : ℕ} : span s offset size = some x ↔
    offset + size ≤ s.length ∧ (s.drop offset).take size = x := by
  unfold span
  split_ifs with h <;> simp [h]

theorem span_eq_none {offset size : ℕ} : span s offset size = none ↔ s.length < offset + size := by
  unfold span
  split_ifs with h <;> simp <;> omega

theorem length_of_span {offset size : ℕ} (h : span s offset size = some x) : x.length = size := by
  obtain ⟨hle, rfl⟩ := span_eq_some.mp h
  rw [List.length_take, List.length_drop]
  omega

theorem span_whole (b : Bytes n) : span b.toList 0 n = some b.toList := by
  have hlen := b.length_eq
  rw [span_eq_some]
  constructor
  · omega
  · rw [List.drop_zero, List.take_of_length_le (by omega)]

/-- What follows a byte string is out of reach of its cells. -/
theorem span_cell (c : Cell n m) (h : span s 0 n = some b.toList) :
    span s c.offset m = some (c.get b).toList := by
  obtain ⟨hle, htake⟩ := span_eq_some.mp h
  have hbound := c.bound
  rw [span_eq_some]
  constructor
  · omega
  · show _ = (b.toList.drop c.offset).take m
    rw [← htake, List.drop_zero, List.drop_take, List.take_take]
    congr 1
    omega

end

/-- Separate cells can be given any contents, whatever the other bytes are. -/
theorem exists_get {n k : ℕ} {m : Fin k → ℕ} (c : (i : Fin k) → Cell n (m i))
    (hdisjoint : ∀ i j, i ≠ j → Disjoint (c i).region (c j).region) (b : Bytes n)
    (x : (i : Fin k) → Bytes (m i)) :
    ∃ b', (∀ i, (c i).get b' = x i) ∧
      AgreeOn Bytes.view (⋃ i, (c i).region)ᶜ b b' := by
  have hpost (i : Fin k) (s s' : Bytes n) (h : AgreeOn Bytes.view (c i).region s s')
      (hs : (c i).get s = x i) : (c i).get s' = x i := (Cell.get_congr h).trans hs
  have hstep (i : Fin k) (t : Bytes n) (_ : AgreeOn Bytes.view (c i).region b t) :
      ∃ t', some ((c i).put t (x i)) = some t' ∧ (c i).get t' = x i ∧
        AgreeOn Bytes.view (c i).regionᶜ t t' :=
    ⟨_, rfl, Cell.get_put _ _ _, (c i).agreeOn_put t (x i)⟩
  have hrun : ∃ b', foldEach k (fun t i => some ((c i).put t (x i))) b = some b' ∧
      (∀ i, (c i).get b' = x i) ∧ AgreeOn Bytes.view (⋃ i, (c i).region)ᶜ b b' :=
    foldEach_spec hdisjoint hpost hstep
  obtain ⟨b', -, hget, hframe⟩ := hrun
  exact ⟨b', hget, hframe⟩

end Storage
