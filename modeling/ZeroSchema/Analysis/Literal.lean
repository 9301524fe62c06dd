import ZeroSchema.Analysis.Field
import ZeroSchema.Library.Numeral

/-! Integer literals as declarations spell them: capacities, alignments, array lengths and
discriminants. -/
namespace ZeroSchema
open Numeral

/-- The machine that the macro runs on. -/
class Host where
  usizeBits : ℕ
  usizeBits_le : usizeBits ≤ 128

namespace Host

@[reducible] def lp64 : Host where
  usizeBits := 64
  usizeBits_le := by decide

def usizeMax [Host] : ℕ := 2 ^ Host.usizeBits - 1

end Host

def u128Max : ℕ := 2 ^ 128 - 1
def u64Max : ℕ := 2 ^ 64 - 1
def u32Max : ℕ := 2 ^ 32 - 1

/-- A literal is spelled without a plus. Its text has the suffix at its end. -/
structure LitInt where
  text : List Char
  suffix : String
  plain : '+' ∉ text

/-- The largest value that a discriminant may have. -/
def WireInt.maximum (repr : WireInt) : ℕ := 256 ^ repr.bytes - 1

namespace LitInt

/-- The text without the underscores. -/
def letters (literal : LitInt) : List Char := literal.text.filter (· ≠ '_')

/-- The radix that a prefix declares, and the digits behind it. -/
def split : List Char → ℕ × List Char
  | '0' :: 'x' :: digits => (16, digits)
  | '0' :: 'o' :: digits => (8, digits)
  | '0' :: 'b' :: digits => (2, digits)
  | digits => (10, digits)

/-- The number of an unsigned type that ends at `limit`. One plus may stand in front. -/
def fromStrRadix (limit : ℕ) (digits : List Char) (radix : ℕ) : Option ℕ :=
  match digits with
  | '+' :: digits => read (toDigit radix) radix limit digits
  | digits => read (toDigit radix) radix limit digits

/-- Reads the number in a type that ends at `limit`, and then bounds it by `max`. -/
def parseUpTo (literal : LitInt) (limit max : ℕ) (malformed excess : String) : Except String ℕ :=
  let (radix, digits) := split literal.letters
  match fromStrRadix limit digits radix with
  | none => .error malformed
  | some value => if max < value then .error excess else .ok value

def parseUnsigned (literal : LitInt) (max : ℕ) (what : String) : Except String ℕ :=
  literal.parseUpTo u128Max max (what ++ " is out of range") (what ++ " is out of range")

/-- Refuses a literal with a suffix. -/
def unsuffixed (literal : LitInt) (message : String) : Except String Unit :=
  if literal.suffix ≠ "" then .error message else .ok ()

def parseAlignment (literal : LitInt) : Except String ℕ := do
  literal.unsuffixed "alignment must be an unsuffixed integer literal"
  let value ← literal.parseUnsigned u32Max "alignment"
  if value = 0 ∨ ¬value.isPowerOfTwo ∨ 2 ^ 29 < value then
    .error "alignment must be a power of two no greater than 2^29"
  else .ok value

def discriminantValue (literal : LitInt) (repr : WireInt) : Except String ℕ := do
  literal.unsuffixed "scalar enum discriminants must be unsuffixed integer literals"
  literal.parseUpTo u64Max repr.maximum "scalar enum discriminant is out of range"
    "scalar enum discriminant does not fit its repr"

section
variable [Host]

def parseCapacity (literal : LitInt) : Except String ℕ := do
  literal.unsuffixed "capacity must be an unsuffixed integer literal"
  literal.parseUnsigned Host.usizeMax "capacity"

/-- The length of an array that is spelled as a literal. -/
def literalLength (literal : LitInt) : Except String ArrayLength := do
  literal.unsuffixed "array length must be an unsuffixed integer literal"
  let value ← literal.parseUnsigned Host.usizeMax "array length"
  arrayLength (.literal literal.suffix value)

end

/-! ### Meaning -/

/-- The four ways to spell a number. -/
inductive Radix
  | hexadecimal
  | octal
  | binary
  | decimal

def Radix.mark : Radix → List Char
  | hexadecimal => ['0', 'x']
  | octal => ['0', 'o']
  | binary => ['0', 'b']
  | decimal => []

def Radix.base : Radix → ℕ
  | hexadecimal => 16
  | octal => 8
  | binary => 2
  | decimal => 10

/-- The number that a literal means: the digits behind the mark, underscores apart. -/
def Denotes (literal : LitInt) (n : ℕ) : Prop :=
  ∃ (radix : Radix) (digits : List Char), literal.letters = radix.mark ++ digits ∧ digits ≠ [] ∧
    Means (toDigit radix.base) radix.base 0 digits n

section
variable {literal : LitInt} {n m : ℕ}

theorem base_pos (radix : Radix) : 0 < radix.base := by
  cases radix <;> decide

/-- No mark begins a decimal number, so the text tells the radix. -/
theorem split_eq {radix : Radix} {digits : List Char}
    (h : ∀ c ∈ digits, (toDigit radix.base c).isSome) :
    split (radix.mark ++ digits) = (radix.base, digits) := by
  cases radix with
  | hexadecimal | octal | binary => rfl
  | decimal =>
    have hsecond (c : Char) (rest : List Char) (heq : digits = '0' :: c :: rest) :
        (toDigit 10 c).isSome := h c (by rw [heq]; simp)
    unfold split
    split
    · next rest heq => exact absurd (hsecond 'x' rest heq) (by decide)
    · next rest heq => exact absurd (hsecond 'o' rest heq) (by decide)
    · next rest heq => exact absurd (hsecond 'b' rest heq) (by decide)
    · rfl

theorem split_spec (text : List Char) : ∃ radix : Radix,
    text = radix.mark ++ (split text).2 ∧ (split text).1 = radix.base := by
  unfold split
  split
  · exact ⟨.hexadecimal, rfl, rfl⟩
  · exact ⟨.octal, rfl, rfl⟩
  · exact ⟨.binary, rfl, rfl⟩
  · exact ⟨.decimal, rfl, rfl⟩

theorem Denotes.unique (hm : literal.Denotes m) (hn : literal.Denotes n) : m = n := by
  obtain ⟨radix, digits, htext, -, hmeans⟩ := hm
  obtain ⟨radix', digits', htext', -, hmeans'⟩ := hn
  have hsplit := split_eq hmeans.isSome
  have hsplit' := split_eq hmeans'.isSome
  rw [← htext] at hsplit
  rw [← htext', hsplit] at hsplit'
  obtain ⟨hbase, rfl⟩ := Prod.mk.inj hsplit'
  rw [← hbase] at hmeans'
  exact hmeans.unique hmeans'

/-- A literal is read as the number that it means, as long as the type can hold it. -/
theorem fromStrRadix_eq_some (limit : ℕ) :
    fromStrRadix limit (split literal.letters).2 (split literal.letters).1 = some n ↔
      literal.Denotes n ∧ n ≤ limit := by
  obtain ⟨radix, htext, hradix⟩ := split_spec literal.letters
  have hplain : '+' ∉ (split literal.letters).2 := by
    intro hplus
    have hmem : '+' ∈ literal.letters := htext ▸ List.mem_append_right radix.mark hplus
    exact literal.plain (List.mem_filter.mp hmem).1
  have hread : fromStrRadix limit (split literal.letters).2 (split literal.letters).1 =
      read (toDigit radix.base) radix.base limit (split literal.letters).2 := by
    rw [hradix]
    unfold fromStrRadix
    split
    · next heq => exact absurd (heq ▸ List.mem_cons_self) hplain
    · rfl
  rw [hread, read_eq_some (base_pos radix)]
  constructor
  · intro ⟨hne, hmeans, hlimit⟩
    exact ⟨⟨radix, _, htext, hne, hmeans⟩, hlimit⟩
  · intro ⟨⟨radix', digits, htext', hne, hmeans⟩, hlimit⟩
    have hsplit := split_eq hmeans.isSome
    rw [← htext'] at hsplit
    obtain ⟨hbase, hdigits⟩ := Prod.ext_iff.mp hsplit
    have hsame : radix.base = radix'.base := hradix.symm.trans hbase
    rw [hdigits, hsame]
    exact ⟨hne, hmeans, hlimit⟩

/-- What is refused means no number, or one past the bound. -/
theorem parseUpTo_eq_ok {limit max : ℕ} {malformed excess : String} (hmax : max ≤ limit) :
    literal.parseUpTo limit max malformed excess = .ok n ↔ literal.Denotes n ∧ n ≤ max := by
  have hread (v : ℕ) :
      fromStrRadix limit (split literal.letters).2 (split literal.letters).1 = some v ↔
        literal.Denotes v ∧ v ≤ limit := fromStrRadix_eq_some limit
  unfold parseUpTo
  dsimp only
  cases hvalue : fromStrRadix limit (split literal.letters).2 (split literal.letters).1 with
  | none =>
    dsimp only
    constructor
    · intro h
      cases h
    · intro ⟨hdenotes, hn⟩
      have hsome := (hread n).mpr ⟨hdenotes, hn.trans hmax⟩
      rw [hvalue] at hsome
      cases hsome
  | some value =>
    obtain ⟨hdenotes, -⟩ := (hread value).mp hvalue
    dsimp only
    split_ifs with hover
    · constructor
      · intro h
        cases h
      · intro ⟨hn, hle⟩
        have heq := hn.unique hdenotes
        omega
    · rw [Except.ok.injEq]
      constructor
      · intro h
        exact ⟨h ▸ hdenotes, by omega⟩
      · intro ⟨hn, _⟩
        exact hdenotes.unique hn

/-- What is refused past the bound is a number between the bound and the end of the type. -/
theorem parseUpTo_eq_over {limit max : ℕ} {malformed excess : String} (hne : malformed ≠ excess) :
    literal.parseUpTo limit max malformed excess = .error excess ↔
      ∃ n, literal.Denotes n ∧ max < n ∧ n ≤ limit := by
  have hread (v : ℕ) :
      fromStrRadix limit (split literal.letters).2 (split literal.letters).1 = some v ↔
        literal.Denotes v ∧ v ≤ limit := fromStrRadix_eq_some limit
  unfold parseUpTo
  dsimp only
  cases hvalue : fromStrRadix limit (split literal.letters).2 (split literal.letters).1 with
  | none =>
    dsimp only
    constructor
    · intro h
      exact absurd (Except.error.inj h) hne
    · intro ⟨v, hdenotes, _, hlimit⟩
      have hsome := (hread v).mpr ⟨hdenotes, hlimit⟩
      rw [hvalue] at hsome
      cases hsome
  | some value =>
    obtain ⟨hdenotes, hlimit⟩ := (hread value).mp hvalue
    dsimp only
    split_ifs with hover
    · exact iff_of_true rfl ⟨value, hdenotes, hover, hlimit⟩
    · constructor
      · intro h
        cases h
      · intro ⟨v, hv, hpast, _⟩
        have heq := hv.unique hdenotes
        omega

theorem unsuffixed_bind_eq_ok {β : Type} {message : String} {f : Unit → Except String β} {b : β} :
    (literal.unsuffixed message >>= f) = .ok b ↔ literal.suffix = "" ∧ f () = .ok b := by
  unfold unsuffixed
  by_cases hsuffix : literal.suffix = ""
  · rw [if_neg (not_not.mpr hsuffix)]
    exact (and_iff_right hsuffix).symm
  · rw [if_pos hsuffix]
    constructor
    · intro h
      cases h
    · intro h
      exact absurd h.1 hsuffix

theorem parseUnsigned_eq_ok {max : ℕ} {what : String} (hmax : max ≤ u128Max) :
    literal.parseUnsigned max what = .ok n ↔ literal.Denotes n ∧ n ≤ max := parseUpTo_eq_ok hmax

/-- The check of an alignment lets the powers of two through that have a marker type. -/
theorem alignment_iff (value : ℕ) : ¬(value = 0 ∨ ¬value.isPowerOfTwo ∨ 2 ^ 29 < value) ↔
    ∃ log ≤ 29, value = 2 ^ log := by
  constructor
  · intro h
    push Not at h
    obtain ⟨-, ⟨log, hv⟩, hle⟩ := h
    rw [hv] at hle
    exact ⟨log, (Nat.pow_le_pow_iff_right (by decide)).mp hle, hv⟩
  · intro ⟨log, hle, hv⟩
    have hpos : 0 < 2 ^ log := Nat.pow_pos (by decide)
    have hbound : 2 ^ log ≤ 2 ^ 29 := Nat.pow_le_pow_right (by decide) hle
    push Not
    exact ⟨by omega, ⟨log, hv⟩, by omega⟩

theorem parseAlignment_eq_ok : literal.parseAlignment = .ok n ↔
    literal.suffix = "" ∧ literal.Denotes n ∧ ∃ log ≤ 29, n = 2 ^ log := by
  have hmax : u32Max ≤ u128Max := by decide
  have hparse (v : ℕ) : literal.parseUnsigned u32Max "alignment" = .ok v ↔
      literal.Denotes v ∧ v ≤ u32Max := parseUnsigned_eq_ok hmax
  unfold parseAlignment
  rw [unsuffixed_bind_eq_ok]
  refine and_congr_right fun _ => ?_
  constructor
  · intro h
    obtain ⟨value, hvalue, h⟩ := except_bind_ok h
    split_ifs at h with hbad
    obtain rfl := Except.ok.inj h
    exact ⟨((hparse value).mp hvalue).1, (alignment_iff value).mp hbad⟩
  · intro ⟨hdenotes, hpower⟩
    have hgood := (alignment_iff n).mpr hpower
    have hmax : n ≤ u32Max := by
      have hbound : 2 ^ 29 ≤ u32Max := by decide
      push Not at hgood
      omega
    rw [(hparse n).mpr ⟨hdenotes, hmax⟩]
    show (if _ then _ else _) = _
    rw [if_neg hgood]

theorem discriminantValue_eq_ok {repr : WireInt} : literal.discriminantValue repr = .ok n ↔
    literal.suffix = "" ∧ literal.Denotes n ∧ n < 256 ^ repr.bytes := by
  have hpos : 0 < 256 ^ repr.bytes := Nat.pow_pos (by decide)
  have hmax : repr.maximum ≤ u64Max := by cases repr <;> decide
  have hlast : n ≤ repr.maximum ↔ n < 256 ^ repr.bytes := by
    unfold WireInt.maximum
    omega
  unfold discriminantValue
  rw [unsuffixed_bind_eq_ok, parseUpTo_eq_ok hmax, hlast]

/-- A discriminant that does not fit is a number all the same. -/
theorem discriminantValue_eq_over {repr : WireInt} : literal.discriminantValue repr =
      .error "scalar enum discriminant does not fit its repr" ↔
    literal.suffix = "" ∧ ∃ n, literal.Denotes n ∧ 256 ^ repr.bytes ≤ n ∧ n ≤ u64Max := by
  have hpos : 0 < 256 ^ repr.bytes := Nat.pow_pos (by decide)
  have hfirst (v : ℕ) : repr.maximum < v ↔ 256 ^ repr.bytes ≤ v := by
    unfold WireInt.maximum
    omega
  have hover : literal.parseUpTo u64Max repr.maximum "scalar enum discriminant is out of range"
      "scalar enum discriminant does not fit its repr" =
        .error "scalar enum discriminant does not fit its repr" ↔
      ∃ n, literal.Denotes n ∧ repr.maximum < n ∧ n ≤ u64Max := parseUpTo_eq_over (by decide)
  simp only [hfirst] at hover
  unfold discriminantValue unsuffixed
  by_cases hsuffix : literal.suffix = ""
  · rw [if_neg (not_not.mpr hsuffix)]
    exact hover.trans (and_iff_right hsuffix).symm
  · rw [if_pos hsuffix]
    constructor
    · intro h
      exact absurd (Except.error.inj h) (by decide)
    · intro h
      exact absurd h.1 hsuffix

section
variable [Host]

theorem usizeMax_le : Host.usizeMax ≤ u128Max := by
  have hbits : 2 ^ Host.usizeBits ≤ 2 ^ 128 :=
    Nat.pow_le_pow_right (by decide) Host.usizeBits_le
  unfold Host.usizeMax u128Max
  omega

theorem parseCapacity_eq_ok : literal.parseCapacity = .ok n ↔
    literal.suffix = "" ∧ literal.Denotes n ∧ n ≤ Host.usizeMax := by
  unfold parseCapacity
  rw [unsuffixed_bind_eq_ok, parseUnsigned_eq_ok usizeMax_le]

theorem literalLength_eq_ok {length : ArrayLength} : literal.literalLength = .ok length ↔
    literal.suffix = "" ∧ ∃ n, length = .literal n ∧ literal.Denotes n ∧ n ≠ 0 ∧
      n ≤ Host.usizeMax := by
  unfold literalLength
  rw [unsuffixed_bind_eq_ok]
  refine and_congr_right fun hsuffix => ?_
  have hlength (v : ℕ) : arrayLength (.literal literal.suffix v) = .ok length ↔
      v ≠ 0 ∧ length = .literal v := by
    unfold arrayLength
    simp only [hsuffix, ne_eq, not_true_eq_false, if_false]
    by_cases hzero : v = 0
    · simp [hzero]
    · simp [hzero, eq_comm]
  constructor
  · intro h
    obtain ⟨v, hv, h⟩ := except_bind_ok h
    obtain ⟨hdenotes, hmax⟩ := (parseUnsigned_eq_ok usizeMax_le).mp hv
    obtain ⟨hne, heq⟩ := (hlength v).mp h
    exact ⟨v, heq, hdenotes, hne, hmax⟩
  · intro ⟨v, heq, hdenotes, hne, hmax⟩
    rw [(parseUnsigned_eq_ok usizeMax_le).mpr ⟨hdenotes, hmax⟩]
    exact (hlength v).mpr ⟨hne, heq⟩

end

/-- Every spelling of a number means it, whatever zeros stand in front and underscores between. -/
theorem denotes_of_digits (radix : Radix) (zeros : ℕ) (hne : zeros ≠ 0 ∨ n ≠ 0)
    (h : literal.letters = radix.mark ++
      (List.replicate zeros 0 ++ (radix.base.digits n).reverse).map Nat.digitChar) :
    literal.Denotes n := by
  let ds : List ℕ := List.replicate zeros 0 ++ (radix.base.digits n).reverse
  have hbase : 1 < radix.base := by cases radix <;> decide
  have hdigit (d : ℕ) (hd : d ∈ ds) : toDigit radix.base d.digitChar = some d := by
    have hlt : d < radix.base := by
      rcases List.mem_append.mp hd with hd | hd
      · rw [(List.mem_replicate.mp hd).2]
        exact base_pos radix
      · exact Nat.digits_lt_base hbase (List.mem_reverse.mp hd)
    have hall : ∀ e < radix.base, toDigit radix.base e.digitChar = some e := by
      cases radix <;> decide
    exact hall d hlt
  have hchars : ds.map Nat.digitChar ≠ [] := by
    intro hnil
    have hds : ds = [] := List.map_eq_nil_iff.mp hnil
    obtain ⟨hzeros, hdigits⟩ := List.append_eq_nil_iff.mp hds
    have hn : n = 0 := Nat.digits_eq_nil_iff_eq_zero.mp (List.reverse_eq_nil_iff.mp hdigits)
    have hz : zeros = 0 := by simpa using hzeros
    omega
  refine ⟨radix, ds.map Nat.digitChar, h, hchars, ds, ?_, ?_⟩
  · rw [List.map_map]
    exact List.map_congr_left hdigit
  · have hvalue : Nat.ofDigits radix.base ds.reverse = n := by
      show Nat.ofDigits radix.base (List.replicate zeros 0 ++ _).reverse = n
      rw [List.reverse_append, List.reverse_reverse, List.reverse_replicate,
        Nat.ofDigits_append_replicate_zero, Nat.ofDigits_digits]
    rw [hvalue]
    omega

/-- Each of the four readers accepts the literals that mean a number it has room for, and gives
that number. -/
theorem literals_are_exact [Host] (literal : LitInt) :
    (∀ n, literal.parseCapacity = .ok n ↔
      literal.suffix = "" ∧ literal.Denotes n ∧ n ≤ Host.usizeMax) ∧
    (∀ n, literal.parseAlignment = .ok n ↔
      literal.suffix = "" ∧ literal.Denotes n ∧ ∃ log ≤ 29, n = 2 ^ log) ∧
    (∀ (repr : WireInt) n, literal.discriminantValue repr = .ok n ↔
      literal.suffix = "" ∧ literal.Denotes n ∧ n < 256 ^ repr.bytes) ∧
    (∀ repr : WireInt, literal.discriminantValue repr =
        .error "scalar enum discriminant does not fit its repr" ↔
      literal.suffix = "" ∧ ∃ n, literal.Denotes n ∧ 256 ^ repr.bytes ≤ n ∧ n ≤ u64Max) ∧
    ∀ length, literal.literalLength = .ok length ↔
      literal.suffix = "" ∧ ∃ n, length = .literal n ∧ literal.Denotes n ∧ n ≠ 0 ∧
        n ≤ Host.usizeMax := by
  refine ⟨fun n => parseCapacity_eq_ok, fun n => parseAlignment_eq_ok,
    fun repr n => discriminantValue_eq_ok, fun repr => discriminantValue_eq_over,
    fun length => literalLength_eq_ok⟩

/-- `0b1_000` -/
def binaryEight : LitInt where
  text := ['0', 'b', '1', '_', '0', '0', '0']
  suffix := ""
  plain := by decide

example : binaryEight.parseAlignment = .ok 8 := by decide

end

end LitInt

end ZeroSchema
