import ZeroSchema.Schema.Observe
import ZeroSchema.Schema.ZeroWire

/-! Access to a root: the exact constructors followed by the proof walk, and what the
constant `ZERO_IS_VALID` promises about them. -/
namespace ZeroSchema
open Storage Control

namespace Schema

section
variable [Target] (S : Schema)

abbrev wire : Layout := S.category.wire

abbrev name : String := S.category.logicalName

/-- Shared access proves the exact input and wraps it. -/
def access {n : ℕ} (s : Slice n) : Outcome SchemaError (Input S.wire) := do
  let input ← S.category.onLayout (Input.fromChecked S.wire s)
  S.category.prove .root 0 input
  .ok input

/-- Exclusive access proves the shared view of the exact input before wrapping it. -/
def accessMut {n : ℕ} (s : Slice n) : Outcome SchemaError (Input S.wire) := do
  let input ← S.category.onLayout (Input.fromChecked S.wire s)
  S.category.prove .root 0 input
  .ok input

theorem ownsErrors : S.category.ownsErrors = true := by
  have h := S.path
  cases hc : S.category <;> simp_all [Category.isPath, Category.ownsErrors]

theorem zeroTag : S.category.ZeroTag 0 :=
  Category.zeroTag_of_payloadEnum
    (Category.payloadEnum_eq_none (Or.inl (Category.isPayload_of_isPath S.path))) 0

variable {S} {s : Slice S.wire.size}

/-- The first fault of exact, aligned bytes decides their access. -/
theorem access_eq (halign : S.wire.align ∣ s.address) :
    ∃ input : Input S.wire, input.bytes = s.bytes ∧
      S.access s = (firstErr ((S.category.faults 0 s.bytes).map fun f =>
        .leaf S.name f.path f.kind) >>= fun _ => .ok input) := by
  obtain ⟨input, hinput, hbytes⟩ := fromChecked_exact s halign
  refine ⟨input, hbytes, ?_⟩
  have hroot : Context.root.Exact S.wire.size := .ofField input "" ""
  have herror (f : Fault) : S.category.errorOf .root f = .leaf S.name f.path f.kind :=
    if_pos S.ownsErrors
  rw [access, hinput]
  change (S.category.prove .root 0 input >>= fun _ => _) = _
  rw [Category.prove_eq_firstErr _ S.accepted hroot, hbytes, funext herror]

theorem faults_eq_nil (halign : S.wire.align ∣ s.address) :
    S.category.faults 0 s.bytes = [] ↔ S.category.Valid 0 s.bytes := by
  obtain ⟨input, -, hbytes⟩ := fromChecked_exact s halign
  rw [← hbytes]
  exact Category.faults_eq_nil S.category S.accepted 0 input

theorem isOk_access (halign : S.wire.align ∣ s.address) :
    (S.access s).isOk = true ↔ S.category.Valid 0 s.bytes := by
  obtain ⟨input, -, haccess⟩ := access_eq halign
  rw [haccess, ← faults_eq_nil halign]
  cases S.category.faults 0 s.bytes <;> simp [firstErr]

end

/-- Access accepts exactly the valid bytes; it rejects all others with the first invalid
leaf of the declaration, whose path and kind the error reports. -/
theorem access_reports_first_fault [Target] (S : Schema) (s : Slice S.wire.size)
    (halign : S.wire.align ∣ s.address) :
    ((S.access s).isOk = true ↔ S.category.Valid 0 s.bytes) ∧
    ((S.accessMut s).isOk = true ↔ S.category.Valid 0 s.bytes) ∧
    (¬S.category.Valid 0 s.bytes → ∃ f, (S.category.faults 0 s.bytes).head? = some f ∧
      S.access s = .err (.leaf S.name f.path f.kind) ∧
      S.accessMut s = .err (.leaf S.name f.path f.kind)) := by
  refine ⟨isOk_access halign, isOk_access halign, fun hinvalid => ?_⟩
  obtain ⟨input, -, haccess⟩ := access_eq halign
  obtain ⟨f, l, hl⟩ := List.exists_cons_of_ne_nil (mt (faults_eq_nil halign).mp hinvalid)
  have herr : S.access s = .err (.leaf S.name f.path f.kind) := by
    rw [haccess, hl]
    rfl
  exact ⟨f, by rw [hl]; rfl, herr, herr⟩

section
attribute [local instance] Target.lp64

/-- An envelope of kind 2, which is not declared. -/
def unknownKind : Slice envelope.wire.size where
  address := 64
  bytes := ⟨[2, 0, 0, 0, 0, 0, 0, 0, 3, 0, 0, 0], by decide⟩
  fits := by decide

theorem access_reports_first_fault_envelope :
    ∃ f, (envelope.category.faults 0 unknownKind.bytes).head? = some f ∧
      envelope.access unknownKind = .err (.leaf "Envelope" f.path f.kind) ∧
      envelope.accessMut unknownKind = .err (.leaf "Envelope" f.path f.kind) :=
  (access_reports_first_fault envelope unknownKind (by decide)).2.2 (by decide)

end

/-- `ZERO_IS_VALID` is exact: it says whether the access proof accepts the all-zero span. -/
theorem zeroIsValid_exact [Target] (S : Schema) (hdist : S.category.DistinctTags)
    (s : Slice S.wire.size) (halign : S.wire.align ∣ s.address)
    (hzero : s.bytes = Bytes.zero S.wire.size) :
    S.category.zeroIsValid = true ↔ (S.access s).isOk = true := by
  rw [isOk_access halign, hzero]
  exact ⟨fun h => Category.valid_zero _ S.accepted S.zeroTag h (Or.inl hdist),
    Category.zeroIsValid_of_valid_zero _ S.accepted S.zeroTag⟩

section
attribute [local instance] Target.lp64

theorem zeroIsValid_exact_envelope :
    envelope.category.zeroIsValid = true ↔
      (envelope.access (⟨64, Bytes.zero 12, by decide⟩ : Slice 12)).isOk = true :=
  zeroIsValid_exact envelope (by decide) ⟨64, Bytes.zero 12, by decide⟩ (by decide) rfl

end

end Schema

end ZeroSchema
