import ZeroSchema.Mutation.Twin
import ZeroSchema.Mutation.Views

/-! Bytes that nobody reads. What access, `copy_into` and mutations do to a span depends on its
logical bytes, and leaves logically equal spans logically equal. -/
namespace ZeroSchema
open Storage Control Category

namespace Schema

section
variable [Target] {S : Schema} {s s' : Slice S.wire.size}

/-- Both spans are where an access can be tried with one outcome: at one address, or aligned. -/
def AlikePlaced (L : Layout) {n : ℕ} (s s' : Slice n) : Prop :=
  s'.address = s.address ∨ L.align ∣ s.address ∧ L.align ∣ s'.address

theorem access_misaligned (h : ¬S.wire.align ∣ s.address) : S.access s =
    .err (.layout S.category.logicalName (.misaligned S.wire.align s.address)) := by
  have hmod : ¬s.address % S.wire.align = 0 := mt Nat.dvd_of_mod_eq_zero h
  unfold access Input.fromChecked
  rw [dif_pos rfl, dif_neg hmod]
  rfl

/-- Access to logically equal spans reports the same error. -/
theorem access_err_iff (hplace : AlikePlaced S.wire s s')
    (h : S.category.LogicalEq 0 s.bytes s'.bytes) (e : SchemaError) :
    S.access s' = .err e ↔ S.access s = .err e := by
  have hfaults := h.faults S.accepted
  have haligned (halign : S.wire.align ∣ s.address) (halign' : S.wire.align ∣ s'.address) :
      S.access s' = .err e ↔ S.access s = .err e := by
    obtain ⟨input, -, haccess⟩ := access_eq halign
    obtain ⟨input', -, haccess'⟩ := access_eq halign'
    rw [haccess, haccess', hfaults]
    cases S.category.faults 0 s.bytes with
    | nil => simp [firstErr]
    | cons f l => simp [firstErr]
  rcases hplace with haddress | ⟨halign, halign'⟩
  · by_cases halign : S.wire.align ∣ s.address
    · exact haligned halign (haddress ▸ halign)
    · have halign' : ¬S.wire.align ∣ s'.address := haddress ▸ halign
      rw [access_misaligned halign, access_misaligned halign', haddress]
  · exact haligned halign halign'

/-- What access hands out are the bytes of an aligned span. -/
theorem bytes_of_access {input : Input S.wire} (h : S.access s = .ok input) :
    S.wire.align ∣ s.address ∧ input.bytes = s.bytes := by
  by_cases halign : S.wire.align ∣ s.address
  · obtain ⟨input', hbytes, haccess⟩ := access_eq halign
    rw [haccess] at h
    cases hfaults : S.category.faults 0 s.bytes with
    | nil =>
      rw [hfaults] at h
      obtain rfl := Outcome.ok.inj h
      exact ⟨halign, hbytes⟩
    | cons f l =>
      rw [hfaults] at h
      cases h
  · rw [access_misaligned halign] at h
    cases h

/-- Where access accepts a span it accepts every logically equal one, and both hold one value. -/
theorem access_twins (hplace : AlikePlaced S.wire s s')
    (h : S.category.LogicalEq 0 s.bytes s'.bytes) {input : Input S.wire}
    (haccess : S.access s = .ok input) :
    ∃ input', S.access s' = .ok input' ∧ S.category.Twins 0 input input' := by
  obtain ⟨halign, hbytes⟩ := bytes_of_access haccess
  have halign' : S.wire.align ∣ s'.address := by
    rcases hplace with haddress | ⟨-, halign'⟩
    · rwa [haddress]
    · exact halign'
  have hvalid := valid_of_access haccess
  have hnil : S.category.faults 0 s'.bytes = [] := by
    rw [h.faults S.accepted, faults_eq_nil halign, ← hbytes]
    exact hvalid
  obtain ⟨input', hbytes', haccess'⟩ := access_eq halign'
  rw [hnil] at haccess'
  refine ⟨input', haccess', LogicalEq.twins S.accepted ?_ hvalid⟩
  rw [hbytes, hbytes']
  exact h

end

section
attribute [local instance] Target.lp64

theorem valid_bareCarrier : carrier.category.Valid 0 bareCarrier.bytes := by decide +kernel

theorem valid_usedCarrier : carrier.category.Valid 0 usedCarrier.bytes := by decide +kernel

/-- A patch of the payload under the second path to the tag, which keeps the mode that is there. -/
def keepMode : carrier.category.Patch :=
  eitherField none (some ⟨secondVariant, theField (some (some none))⟩)

end

end Schema

end ZeroSchema
