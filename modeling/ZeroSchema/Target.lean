import ZeroSchema.Library.Endian
import ZeroSchema.Library.Layout

/-! What the generated code takes from the compilation target: byte order, pointer width
and the alignments of the multi-byte primitives. -/
namespace ZeroSchema
open Storage

/-- Alignments are given by their base-2 logarithms; a primitive is never aligned beyond
its size. -/
class Target where
  endian : Endian
  usizeBits : ℕ
  logAlign16 : ℕ
  logAlign32 : ℕ
  logAlign64 : ℕ
  usizeBits_ge : 16 ≤ usizeBits
  logAlign16_le : logAlign16 ≤ 1
  logAlign32_le : logAlign32 ≤ 2
  logAlign64_le : logAlign64 ≤ 3

namespace Target

/-- A 64-bit little-endian machine with natural alignment. -/
@[reducible] def lp64 : Target where
  endian := .little
  usizeBits := 64
  logAlign16 := 1
  logAlign32 := 2
  logAlign64 := 3
  usizeBits_ge := by decide
  logAlign16_le := le_rfl
  logAlign32_le := le_rfl
  logAlign64_le := le_rfl

end Target

section
variable [Target]

def usizeMax : ℕ := 2 ^ Target.usizeBits - 1

/-- No allocation, and so no slice and no sized type, is larger than this. -/
def isizeMax : ℕ := 2 ^ (Target.usizeBits - 1) - 1

theorem isizeMax_le_usizeMax : isizeMax ≤ usizeMax := by
  have h : 2 ^ (Target.usizeBits - 1) ≤ 2 ^ Target.usizeBits :=
    Nat.pow_le_pow_right (by decide) (Nat.sub_le _ _)
  unfold isizeMax usizeMax
  omega

end

/-- The width in bytes of an unsigned integer type. -/
inductive Width
  | w8
  | w16
  | w32
  | w64
deriving DecidableEq

namespace Width

def bytes : Width → ℕ
  | w8 => 1
  | w16 => 2
  | w32 => 4
  | w64 => 8

variable [Target]

def logAlign : Width → ℕ
  | w8 => 0
  | w16 => Target.logAlign16
  | w32 => Target.logAlign32
  | w64 => Target.logAlign64

abbrev layout (w : Width) : Layout where
  size := w.bytes
  logAlign := w.logAlign
  dvd := by
    cases w with
    | w8 => exact one_dvd _
    | w16 => exact Nat.pow_dvd_pow 2 (m := Target.logAlign16) (n := 1) Target.logAlign16_le
    | w32 => exact Nat.pow_dvd_pow 2 (m := Target.logAlign32) (n := 2) Target.logAlign32_le
    | w64 => exact Nat.pow_dvd_pow 2 (m := Target.logAlign64) (n := 3) Target.logAlign64_le

end Width

/-- The byte order a declaration selects for a field. -/
inductive WireEndian
  | native
  | little
  | big
deriving DecidableEq

def WireEndian.order [Target] : WireEndian → Endian
  | native => Target.endian
  | little => .little
  | big => .big

end ZeroSchema
