import ZeroSchema.Mutation.Presence
import ZeroSchema.Mutation.Tag

/-! `clear`, which the type system offers on records whose `ClearState` allows it. -/
namespace ZeroSchema
open Storage Control

namespace Category

/-- Without a tagged payload all three analyses of the zero wire say the same. -/
theorem zero_analyses_of_tagFree (c : Category) (h : c.TagFree) :
    (c.clearState = .zeroValid ↔ c.zeroIsValid = true) ∧
    (c.zeroIsValid = true ↔ c.zeroState = .zeroValid) := by
  have hsame := clearState_eq_zeroState c h
  have hclear := zeroIsValid_of_clearState c
  have hzero := zeroState_of_zeroIsValid c
  rw [hsame] at hclear ⊢
  exact ⟨⟨hclear, hzero⟩, ⟨hzero, hclear⟩⟩

/-- The present value of an optional is never clearable. -/
theorem clearState_ne_of_optional [Target] {align : Option Alignment} {inner : Category}
    (h : (optional align inner).Accepted) : inner.clearState ≠ .zeroValid := by
  intro hclear
  have hzero := zeroState_of_zeroIsValid inner (zeroIsValid_of_clearState inner hclear)
  have hinvalid : inner.zeroState = .zeroInvalid := h.2.2
  rw [hinvalid] at hzero
  cases hzero

end Category

open Category

namespace Schema

section
attribute [local instance] Target.lp64

/-- The count that the second path to the tag lends, in the bytes of a setting. -/
def aliasedCount : Position holder.category count :=
  .field secondVariant tagEnum_holderPayload (.variant secondVariant .here)

end

end Schema

end ZeroSchema
