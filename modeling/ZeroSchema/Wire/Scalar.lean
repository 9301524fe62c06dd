import ZeroSchema.Access.Input
import Mathlib.Data.Nat.Bitwise

/-! Wire storage of primitives, Booleans, scalar enums and string length prefixes. Every
byte pattern is a wire value; decoding decides which of them are logical values. -/
namespace ZeroSchema
open Storage
variable [Target]

/-- Numbers are carried by their bit patterns, so signed integers and floats are the
unsigned integers of their width. -/
inductive Primitive
  | u8 | i8 | u16 | i16 | u32 | i32 | u64 | i64 | f32 | f64
deriving DecidableEq

namespace Primitive

def width : Primitive → Width
  | u8 | i8 => .w8
  | u16 | i16 => .w16
  | u32 | i32 | f32 => .w32
  | u64 | i64 | f64 => .w64

abbrev Value (p : Primitive) : Type := BitVec (8 * p.width.bytes)

def get (p : Primitive) (e : WireEndian) (b : Bytes p.width.bytes) : p.Value :=
  BitVec.ofNat _ (e.order.decode b.toList)

def storePreflighted (p : Primitive) (e : WireEndian) (v : p.Value) : Bytes p.width.bytes :=
  ⟨e.order.encode p.width.bytes v.toNat, Endian.length_encode _ _ _⟩

omit [Target] in
theorem toNat_lt (p : Primitive) (v : p.Value) : v.toNat < 256 ^ p.width.bytes := by
  have h := v.isLt
  rwa [Nat.pow_mul] at h

@[simp] theorem get_storePreflighted (p : Primitive) (e : WireEndian) (v : p.Value) :
    p.get e (p.storePreflighted e v) = v := by
  rw [get, storePreflighted, Endian.decode_encode_of_lt _ (p.toNat_lt v), BitVec.ofNat_toNat,
    BitVec.setWidth_eq]

@[simp] theorem storePreflighted_get (p : Primitive) (e : WireEndian) (b : Bytes p.width.bytes) :
    p.storePreflighted e (p.get e b) = b := by
  have hencode := Endian.encode_decode e.order b.toList
  have hlt := Endian.decode_lt e.order b.toList
  rw [b.length_eq] at hencode hlt
  have hround : (p.get e b).toNat = e.order.decode b.toList := by
    rw [get, BitVec.toNat_ofNat, Nat.pow_mul]
    exact Nat.mod_eq_of_lt hlt
  apply Bytes.ext
  show e.order.encode p.width.bytes (p.get e b).toNat = b.toList
  rw [hround]
  exact hencode

end Primitive

namespace BoolWire

def raw (b : Bytes 1) : UInt8 := b.toList.get ⟨0, by rw [b.length_eq]; exact one_pos⟩

def decode (raw : UInt8) : Option Bool :=
  if raw = 0 then some false else if raw = 1 then some true else none

def encode (value : Bool) : UInt8 := if value then 1 else 0

omit [Target] in
@[simp] theorem decode_encode (value : Bool) : decode (encode value) = some value := by
  cases value <;> rfl

def storePreflighted (value : Bool) : Bytes 1 := ⟨[encode value], rfl⟩

omit [Target] in
@[simp] theorem decode_storePreflighted (value : Bool) :
    decode (raw (storePreflighted value)) = some value := decode_encode value

omit [Target] in
theorem storePreflighted_of_decode {b : Bytes 1} {value : Bool} (h : decode (raw b) = some value) :
    storePreflighted value = b := by
  obtain ⟨l, hl⟩ := b
  obtain ⟨x, rfl⟩ := List.length_eq_one_iff.mp hl
  have hx : decode x = some value := h
  apply Bytes.ext
  unfold decode at hx
  split_ifs at hx with h₀ h₁
  · obtain rfl := Option.some.inj hx
    rw [h₀]
    rfl
  · obtain rfl := Option.some.inj hx
    rw [h₁]
    rfl

omit [Target] in
theorem decode_eq_none {raw : UInt8} : decode raw = none ↔ ¬(raw = 0 ∨ raw = 1) := by
  unfold decode
  split_ifs with h₀ h₁ <;> simp [*]

omit [Target] in
theorem isSome_decode {raw : UInt8} : (decode raw).isSome ↔ raw = 0 ∨ raw = 1 := by
  rw [← not_iff_not, ← decode_eq_none, Option.not_isSome_iff_eq_none]

end BoolWire

/-- The unsigned integers that can carry an enum discriminant or a length prefix. -/
inductive WireInt
  | u8 | u16 | u32
deriving DecidableEq

namespace WireInt

def width : WireInt → Width
  | u8 => .w8
  | u16 => .w16
  | u32 => .w32

abbrev bytes (w : WireInt) : ℕ := w.width.bytes

abbrev layout (w : WireInt) : Layout := w.width.layout

/-- The raw integer of a wire, as both enum and prefix decoding read it. -/
def raw (e : WireEndian) (b : List UInt8) : ℕ := e.order.decode b

def store (w : WireInt) (e : WireEndian) (v : ℕ) : Bytes w.bytes :=
  ⟨e.order.encode w.bytes v, Endian.length_encode _ _ _⟩

/-- Decodes a length prefix without applying a capacity bound. -/
def load (e : WireEndian) (b : List UInt8) : Option ℕ :=
  if raw e b ≤ usizeMax then some (raw e b) else none

/-- Whether a length prefix of this width can encode `value`. -/
def represents (w : WireInt) (value : ℕ) : Bool := value < 256 ^ w.bytes

theorem raw_store (w : WireInt) (e : WireEndian) {v : ℕ} (h : v < 256 ^ w.bytes) :
    raw e (w.store e v).toList = v := Endian.decode_encode_of_lt _ h

/-- The bytes of a wire are those of its raw integer. -/
theorem store_raw (w : WireInt) (e : WireEndian) (b : Bytes w.bytes) :
    w.store e (raw e b.toList) = b := by
  have hencode := Endian.encode_decode e.order b.toList
  rw [b.length_eq] at hencode
  exact Bytes.ext hencode

@[simp] theorem raw_zero (e : WireEndian) (n : ℕ) : raw e (Bytes.zero n).toList = 0 :=
  Endian.decode_replicate_zero _ _

end WireInt

/-- A scalar enum declaration: its discriminants in declaration order. Analysis rejects an
empty enum, a repeated discriminant and one outside the representation. -/
structure EnumIr where
  logicalName : String
  repr : WireInt
  endian : WireEndian
  discriminants : List ℕ
  nonempty : discriminants ≠ []
  nodup : discriminants.Nodup
  fits : ∀ d ∈ discriminants, d < 256 ^ repr.bytes
deriving DecidableEq

namespace EnumIr
variable (ir : EnumIr)

def arity : ℕ := ir.discriminants.length

/-- A value of the enum is one of its declared variants. -/
abbrev Value : Type := Fin ir.arity

def toRaw (v : ir.Value) : ℕ := ir.discriminants.get v

def fromRaw (raw : ℕ) : Option ir.Value :=
  (List.finRange ir.arity).find? fun v => ir.toRaw v = raw

def declaresZero : Bool := 0 ∈ ir.discriminants

/-- Loads the raw discriminant from the wire of the enum. -/
def load (b : Bytes ir.repr.bytes) : Option ir.Value := ir.fromRaw (WireInt.raw ir.endian b.toList)

def commit (v : ir.Value) : Bytes ir.repr.bytes := ir.repr.store ir.endian (ir.toRaw v)

variable {ir}

omit [Target] in
theorem toRaw_injective : Function.Injective ir.toRaw := List.nodup_iff_injective_get.mp ir.nodup

omit [Target] in
theorem fromRaw_eq_some {raw : ℕ} {v : ir.Value} : ir.fromRaw raw = some v ↔ ir.toRaw v = raw := by
  constructor
  · intro h
    simpa using List.find?_some h
  · intro h
    cases hf : ir.fromRaw raw with
    | none =>
      have hall := List.find?_eq_none.mp hf v (List.mem_finRange v)
      simp [h] at hall
    | some u =>
      have hu : ir.toRaw u = raw := by simpa using List.find?_some hf
      rw [toRaw_injective (hu.trans h.symm)]

omit [Target] in
theorem toRaw_lt (v : ir.Value) : ir.toRaw v < 256 ^ ir.repr.bytes := ir.fits _ (List.get_mem _ _)

theorem load_commit (v : ir.Value) : ir.load (ir.commit v) = some v := by
  rw [load, commit, WireInt.raw_store _ _ (toRaw_lt v), fromRaw_eq_some]

theorem commit_of_load {b : Bytes ir.repr.bytes} {v : ir.Value} (h : ir.load b = some v) :
    ir.commit v = b := by
  have hraw := fromRaw_eq_some.mp h
  rw [commit, hraw, WireInt.store_raw]

omit [Target] in
theorem declaresZero_iff : ir.declaresZero = true ↔ ∃ v, ir.toRaw v = 0 := by
  simp only [declaresZero, decide_eq_true_eq, List.mem_iff_get, toRaw]
  rfl

theorem isSome_load {b : Bytes ir.repr.bytes} :
    (ir.load b).isSome ↔ WireInt.raw ir.endian b.toList ∈ ir.discriminants := by
  simp only [load, Option.isSome_iff_exists, fromRaw_eq_some, List.mem_iff_get, toRaw]
  rfl

theorem load_zero : (ir.load (Bytes.zero _)).isSome ↔ ir.declaresZero = true := by
  rw [declaresZero_iff, load, WireInt.raw_zero, Option.isSome_iff_exists]
  simp only [fromRaw_eq_some]

end EnumIr

end ZeroSchema
