import Mathlib.Data.Nat.Digits.Defs

/-! Numerals that are read digit by digit, with every product and every sum checked against the
greatest number that the accumulator can hold. -/
namespace Numeral

/-- The value of a digit in a radix of at most thirty-six. -/
def toDigit (radix : ℕ) (c : Char) : Option ℕ :=
  let value :=
    if '0' ≤ c ∧ c ≤ '9' then c.toNat - '0'.toNat
    else if 'a' ≤ c ∧ c ≤ 'z' then c.toNat - 'a'.toNat + 10
    else if 'A' ≤ c ∧ c ≤ 'Z' then c.toNat - 'A'.toNat + 10
    else radix
  if value < radix then some value else none

section
variable {χ : Type} (digit : χ → Option ℕ) (radix limit : ℕ)

/-- One digit behind an accumulator; none when the number passes the limit. -/
def push (acc : ℕ) (c : χ) : Option ℕ :=
  if limit < acc * radix then none
  else (digit c).bind fun d => if limit < acc * radix + d then none else some (acc * radix + d)

def readFrom : ℕ → List χ → Option ℕ
  | acc, [] => some acc
  | acc, c :: rest => (push digit radix limit acc c).bind fun acc => readFrom acc rest

/-- Reads a numeral; there is none without digits. -/
def read (text : List χ) : Option ℕ :=
  if text.isEmpty then none else readFrom digit radix limit 0 text

/-- What a text means behind an accumulator: its digits in positional notation. -/
def Means (acc : ℕ) (text : List χ) (n : ℕ) : Prop :=
  ∃ digits : List ℕ, text.map digit = digits.map some ∧
    n = acc * radix ^ text.length + Nat.ofDigits radix digits.reverse

variable {digit radix limit} {acc n : ℕ} {c : χ} {text rest : List χ}

theorem push_eq_some {next : ℕ} : push digit radix limit acc c = some next ↔
    ∃ d, digit c = some d ∧ next = acc * radix + d ∧ next ≤ limit := by
  unfold push
  split_ifs with hshift
  · constructor
    · intro h
      cases h
    · intro ⟨d, _, hnext, hlimit⟩
      omega
  · cases hd : digit c with
    | none => simp
    | some d =>
      by_cases hlimit : limit < acc * radix + d
      · simp only [Option.bind_some, if_pos hlimit, Option.some.injEq]
        constructor
        · intro h
          cases h
        · intro ⟨e, he, hnext, hle⟩
          omega
      · simp only [Option.bind_some, if_neg hlimit, Option.some.injEq]
        constructor
        · intro h
          exact ⟨d, rfl, h.symm, by omega⟩
        · intro ⟨e, he, hnext, _⟩
          omega

theorem means_nil : Means digit radix acc [] n ↔ n = acc := by
  unfold Means
  constructor
  · intro ⟨digits, hdigits, hn⟩
    have hnil : digits = [] := List.map_eq_nil_iff.mp hdigits.symm
    simpa [hnil] using hn
  · intro hn
    exact ⟨[], rfl, by simp [hn]⟩

/-- A first digit goes into the accumulator. -/
theorem means_cons : Means digit radix acc (c :: rest) n ↔
    ∃ d, digit c = some d ∧ Means digit radix (acc * radix + d) rest n := by
  have hvalue (d : ℕ) (digits : List ℕ) (hlen : digits.length = rest.length) :
      acc * radix ^ (c :: rest).length + Nat.ofDigits radix (d :: digits).reverse =
        (acc * radix + d) * radix ^ rest.length + Nat.ofDigits radix digits.reverse := by
    rw [Nat.ofDigits_reverse_cons, hlen, List.length_cons, Nat.pow_succ]
    ring
  have hlength {digits : List ℕ} (h : rest.map digit = digits.map some) :
      digits.length = rest.length := by
    have hlen := congrArg List.length h
    rw [List.length_map, List.length_map] at hlen
    exact hlen.symm
  unfold Means
  constructor
  · intro ⟨digits, hdigits, hn⟩
    cases digits with
    | nil => cases hdigits
    | cons d digits =>
      obtain ⟨hd, hrest⟩ := List.cons.inj hdigits
      exact ⟨d, hd, digits, hrest, hn.trans (hvalue d digits (hlength hrest))⟩
  · intro ⟨d, hd, digits, hrest, hn⟩
    refine ⟨d :: digits, ?_, hn.trans (hvalue d digits (hlength hrest)).symm⟩
    rw [List.map_cons, List.map_cons, hd, hrest]

/-- A number is never smaller than what stands in front of it. -/
theorem Means.le (hradix : 0 < radix) (h : Means digit radix acc text n) : acc ≤ n := by
  obtain ⟨digits, -, hn⟩ := h
  have hpow : 0 < radix ^ text.length := Nat.pow_pos hradix
  have hacc : acc * 1 ≤ acc * radix ^ text.length := Nat.mul_le_mul_left acc hpow
  omega

/-- The checks refuse exactly the numbers past the limit. -/
theorem readFrom_eq_some (hradix : 0 < radix) (hacc : acc ≤ limit) :
    readFrom digit radix limit acc text = some n ↔ Means digit radix acc text n ∧ n ≤ limit := by
  induction text generalizing acc with
  | nil =>
    rw [means_nil, readFrom, Option.some.injEq]
    constructor
    · intro h
      exact ⟨h.symm, h ▸ hacc⟩
    · intro h
      exact h.1.symm
  | cons c rest ih =>
    rw [readFrom, Option.bind_eq_some_iff, means_cons]
    constructor
    · intro ⟨next, hpush, hread⟩
      obtain ⟨d, hd, rfl, hnext⟩ := push_eq_some.mp hpush
      obtain ⟨hmeans, hn⟩ := (ih hnext).mp hread
      exact ⟨⟨d, hd, hmeans⟩, hn⟩
    · intro ⟨⟨d, hd, hmeans⟩, hn⟩
      have hnext : acc * radix + d ≤ limit := (hmeans.le hradix).trans hn
      exact ⟨acc * radix + d, push_eq_some.mpr ⟨d, hd, rfl, hnext⟩, (ih hnext).mpr ⟨hmeans, hn⟩⟩

theorem read_eq_some (hradix : 0 < radix) : read digit radix limit text = some n ↔
    text ≠ [] ∧ Means digit radix 0 text n ∧ n ≤ limit := by
  unfold read
  cases text with
  | nil => simp
  | cons c rest => simp [readFrom_eq_some hradix (Nat.zero_le limit)]

theorem Means.unique {m : ℕ} (hm : Means digit radix acc text m)
    (hn : Means digit radix acc text n) : m = n := by
  obtain ⟨digits, hdigits, rfl⟩ := hm
  obtain ⟨digits', hdigits', rfl⟩ := hn
  have heq : digits = digits' :=
    (List.map_inj_right fun _ _ => Option.some.inj).mp (hdigits.symm.trans hdigits')
  rw [heq]

/-- A character that is no digit has no place in a numeral. -/
theorem Means.isSome (h : Means digit radix acc text n) : ∀ c ∈ text, (digit c).isSome := by
  obtain ⟨digits, hdigits, -⟩ := h
  intro c hc
  have hmem : digit c ∈ digits.map some := hdigits ▸ List.mem_map_of_mem hc
  obtain ⟨d, -, hd⟩ := List.mem_map.mp hmem
  rw [← hd]
  rfl

end

end Numeral
