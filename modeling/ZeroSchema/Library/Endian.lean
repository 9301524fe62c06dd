import ZeroSchema.Library.Bytes
import Mathlib.Tactic.Ring

/-! Fixed-width unsigned numbers as byte strings, in both byte orders. -/
namespace Storage

inductive Endian
  | little
  | big
deriving DecidableEq

namespace Endian

/-- Base-256 digits, least significant first, exactly `width` of them. -/
def digits : ℕ → ℕ → List UInt8
  | 0, _ => []
  | width + 1, v => UInt8.ofNat (v % 256) :: digits width (v / 256)

def value : List UInt8 → ℕ
  | [] => 0
  | x :: xs => x.toNat + 256 * value xs

def encode (e : Endian) (width v : ℕ) : List UInt8 :=
  match e with
  | little => digits width v
  | big => (digits width v).reverse

def decode (e : Endian) (xs : List UInt8) : ℕ :=
  match e with
  | little => value xs
  | big => value xs.reverse

@[simp] theorem length_digits (width v : ℕ) : (digits width v).length = width := by
  induction width generalizing v with
  | zero => rfl
  | succ width ih => simp [digits, ih]

@[simp] theorem length_encode (e : Endian) (width v : ℕ) : (e.encode width v).length = width := by
  cases e <;> simp [encode]

theorem value_lt (xs : List UInt8) : value xs < 256 ^ xs.length := by
  induction xs with
  | nil => simp [value]
  | cons x xs ih =>
    have hx : x.toNat < 256 := x.toNat_lt
    simp only [value, List.length_cons, pow_succ]
    omega

theorem decode_lt (e : Endian) (xs : List UInt8) : e.decode xs < 256 ^ xs.length := by
  cases e with
  | little => exact value_lt xs
  | big => simpa [decode] using value_lt xs.reverse

theorem value_digits (width v : ℕ) : value (digits width v) = v % 256 ^ width := by
  induction width generalizing v with
  | zero => simp [digits, value, Nat.mod_one]
  | succ width ih =>
    have hlow : (UInt8.ofNat (v % 256)).toNat = v % 256 := by simp
    rw [digits, value, ih, hlow, pow_succ, mul_comm (256 ^ width), Nat.mod_mul]

theorem decode_encode (e : Endian) (width v : ℕ) :
    e.decode (e.encode width v) = v % 256 ^ width := by
  cases e with
  | little => exact value_digits width v
  | big => simpa [encode, decode] using value_digits width v

theorem decode_encode_of_lt (e : Endian) {width v : ℕ} (h : v < 256 ^ width) :
    e.decode (e.encode width v) = v := by
  rw [decode_encode, Nat.mod_eq_of_lt h]

theorem digits_value (xs : List UInt8) : digits xs.length (value xs) = xs := by
  induction xs with
  | nil => rfl
  | cons x xs ih =>
    have hx : x.toNat < 256 := x.toNat_lt
    have hlow : (x.toNat + 256 * value xs) % 256 = x.toNat := by omega
    have hhigh : (x.toNat + 256 * value xs) / 256 = value xs := by omega
    rw [List.length_cons, digits, value, hlow, hhigh, ih, UInt8.ofNat_toNat]

theorem encode_decode (e : Endian) (xs : List UInt8) :
    e.encode xs.length (e.decode xs) = xs := by
  cases e with
  | little => exact digits_value xs
  | big =>
    have h := digits_value xs.reverse
    rw [List.length_reverse] at h
    rw [encode, decode, h, List.reverse_reverse]

theorem value_replicate_zero (n : ℕ) : value (List.replicate n 0) = 0 := by
  induction n with
  | zero => rfl
  | succ n ih => simp [List.replicate_succ, value, ih]

@[simp] theorem decode_replicate_zero (e : Endian) (n : ℕ) :
    e.decode (List.replicate n 0) = 0 := by
  cases e <;> simp [decode, value_replicate_zero]

end Endian

end Storage
