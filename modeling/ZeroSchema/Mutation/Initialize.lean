import ZeroSchema.Mutation.Merge
import ZeroSchema.Schema.Observe

/-! Initialization of storage that holds nothing in particular: an inactive payload, an
absent optional. What was there before decides nothing. -/
namespace ZeroSchema
open Storage Control

namespace Category
variable [Target]

/-- A commit of a value that was not there before leaves valid storage that reads back as it. -/
theorem read_back (c : Category) {ctx : Context} {tag : ℕ} {input : Input c.wire} {v : c.Logical}
    (h : c.Represents tag input.bytes v) :
    c.prove ctx tag input = .ok () ∧ c.materialize tag input = some v :=
  ⟨(c.prove_eq_ok ctx tag input).mpr h.valid, c.materialize_eq input h⟩

end Category

open Category

/-- Over any prior bytes, a complete patch that passes its initializing preflight is committed
to its own value, and so is a logical value. -/
theorem commit_init_sound [Target] (c : Category) (h : c.Accepted) (hd : c.DistinctTags)
    (ctx : Context) (input : Input c.wire) :
    (∀ p : c.Patch, c.isComplete p = true → c.preflightPatch true ctx 0 input p = .ok () →
      ∃ v input', c.merge none p = some v ∧ c.commitPatch p true input = some input' ∧
        c.prove ctx (c.patchTag p) input' = .ok () ∧
        c.materialize (c.patchTag p) input' = some v) ∧
    (∀ v : c.Logical, c.preflightLogical true ctx 0 input v = .ok () →
      ∃ input', c.commitLogical v true input = some input' ∧
        c.prove ctx (c.logicalTag v) input' = .ok () ∧
        c.materialize (c.logicalTag v) input' = some v) := by
  constructor
  · intro p hcomplete hpre
    obtain ⟨v, input', hmerge, hcommit, hrep⟩ := commitPatch_spec c h hd true input
      ⟨rfl, hcomplete⟩ (fun _ => rfl) hpre
    exact ⟨v, input', hmerge, hcommit, c.read_back hrep⟩
  · intro v hpre
    have hfits := (preflightLogical_eq_ok c h hd (Or.inl rfl)).mp hpre
    obtain ⟨input', hcommit, hrep⟩ := commitLogical_spec c h hd true input
      (Or.inl rfl) (fun _ => rfl) hfits
    exact ⟨input', hcommit, c.read_back hrep⟩

section
attribute [local instance] Target.lp64

/-- Kind and message of a reading, and no mode. -/
def readingPatch : (i : Fin 3) → Option (envelopeFields i).Patch :=
  eachField (some dataKind) (some ⟨secondVariant, fun _ => some 5#32⟩) (some none)

theorem commit_init_sound_envelope :
    ∃ v input', envelope.category.merge none readingPatch = some v ∧
      envelope.category.commitPatch readingPatch true staleEnvelope = some input' ∧
      envelope.category.prove .root 0 input' = .ok () ∧
      envelope.category.materialize 0 input' = some v :=
  (commit_init_sound envelope.category (by decide) (by decide) .root staleEnvelope).1 readingPatch
    (by decide) (by decide)

end

end ZeroSchema
