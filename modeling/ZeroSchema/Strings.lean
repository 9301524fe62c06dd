import ZeroSchema.Wire.Scalar
import Mathlib.Data.List.TakeWhile

/-! Bounded strings: two length-prefixed forms and two terminated ones, in bytes and in
native-endian `u16` units. Proof reads only the active length or up to the first
terminator; mutation checks the whole source before it writes and leaves the tail alone. -/
namespace ZeroSchema
open Storage Control

inductive StringProofError
  | lengthOutOfBounds (length capacity : ℕ)
  | invalidUtf8
  | missingNul
deriving DecidableEq

def StringProofError.kind : StringProofError → ErrorKind
  | lengthOutOfBounds _ _ => .lengthOutOfBounds
  | invalidUtf8 => .invalidUtf8
  | missingNul => .missingNul

inductive StringMutationError
  | capacityExceeded (length capacity : ℕ)
  | lengthUnrepresentable (length : ℕ)
  | prefixSize (expected actual : ℕ)
  | wideByteSize (actual : ℕ)
  | layout (error : LayoutError)
deriving DecidableEq

def StringMutationError.kind : StringMutationError → ErrorKind
  | capacityExceeded _ _ => .capacityExceeded
  | lengthUnrepresentable _ => .lengthUnrepresentable
  | prefixSize _ _ | wideByteSize _ | layout _ => .layout

/-- Units without a terminator among them. -/
structure Terminated (α : Type) [OfNat α 0] where
  units : List α
  noNul : 0 ∉ units

@[ext] theorem Terminated.ext {α : Type} [OfNat α 0] {s t : Terminated α} (h : s.units = t.units) :
    s = t := by
  cases s; cases t; congr

/-- The units followed by the terminator. -/
def Terminated.withNul {α : Type} [OfNat α 0] (s : Terminated α) : List α := s.units ++ [0]

/-- The units before the first terminator, which must exist. -/
def Terminated.untilNul {α : Type} [OfNat α 0] [DecidableEq α] (data : List α) :
    Except StringProofError (Terminated α) :=
  if 0 ∈ data then
    .ok ⟨data.takeWhile (· ≠ 0), fun h => by simpa using List.mem_takeWhile_imp h⟩
  else .error .missingNul

variable [Target]

/-- The `u16` units of a byte string; an odd last byte belongs to no unit. -/
def nativeUnits : List UInt8 → List UInt16
  | x :: y :: rest => UInt16.ofNat (Target.endian.decode [x, y]) :: nativeUnits rest
  | _ => []

def nativeBytes (units : List UInt16) : List UInt8 :=
  units.flatMap fun u => Target.endian.encode 2 u.toNat

/-! ### Proof -/

def activeLength (e : WireEndian) (length : List UInt8) (capacity : ℕ) :
    Except StringProofError ℕ :=
  match WireInt.load e length with
  | none => .error (.lengthOutOfBounds usizeMax capacity)
  | some length =>
    if capacity < length then .error (.lengthOutOfBounds length capacity) else .ok length

def proveStr (e : WireEndian) (length data : List UInt8) : Except StringProofError String := do
  let length ← activeLength e length data.length
  match String.fromUTF8? ⟨(data.take length).toArray⟩ with
  | some value => .ok value
  | none => .error .invalidUtf8

def proveCStr (data : List UInt8) : Except StringProofError (Terminated UInt8) :=
  Terminated.untilNul data

def proveU16Str (e : WireEndian) (length : List UInt8) (units : List UInt16) :
    Except StringProofError (List UInt16) := do
  let length ← activeLength e length units.length
  .ok (units.take length)

def proveU16CStr (units : List UInt16) : Except StringProofError (Terminated UInt16) :=
  Terminated.untilNul units

/-- Reads `[u16; N]` from exactly `2 * N` bytes at an address `u16` may have. -/
def refU16s {n : ℕ} (capacity : ℕ) (data : Slice n) : Option (List UInt16) :=
  if n = capacity * 2 ∧ Width.w16.layout.align ∣ data.address then
    some (nativeUnits data.bytes.toList)
  else none

/-! ### Mutation -/

def preflightLengthPrefixed (w : WireInt) (length capacity lengthSize : ℕ) :
    Except StringMutationError Unit :=
  if lengthSize ≠ w.bytes then .error (.prefixSize w.bytes lengthSize)
  else if capacity < length then .error (.capacityExceeded length capacity)
  else if !w.represents length then .error (.lengthUnrepresentable length)
  else .ok ()

def wideCapacity (bytes : ℕ) : Except StringMutationError ℕ :=
  if bytes % 2 ≠ 0 then .error (.wideByteSize bytes) else .ok (bytes / 2)

def preflightStr {m n : ℕ} (w : WireInt) (_length : Bytes m) (_data : Bytes n) (value : String) :
    Except StringMutationError Unit :=
  preflightLengthPrefixed w value.utf8ByteSize n m

def preflightU16Str {m n : ℕ} (w : WireInt) (_length : Bytes m) (_data : Bytes n)
    (value : List UInt16) : Except StringMutationError Unit := do
  let capacity ← wideCapacity n
  preflightLengthPrefixed w value.length capacity m

def preflightCStr {n : ℕ} (_data : Bytes n) (value : Terminated UInt8) :
    Except StringMutationError Unit :=
  if n < value.withNul.length then .error (.capacityExceeded value.withNul.length n) else .ok ()

def preflightU16CStr {n : ℕ} (_data : Bytes n) (value : Terminated UInt16) :
    Except StringMutationError Unit := do
  let capacity ← wideCapacity n
  if capacity < value.withNul.length then
    .error (.capacityExceeded value.withNul.length capacity)
  else .ok ()

/-- `data[..source.len()].copy_from_slice(source)`, which panics when `data` is too short. -/
def copyFromSlice {n : ℕ} (data : Bytes n) (source : List UInt8) : Option (Bytes n) :=
  if h : source.length ≤ n then
    some ⟨source ++ data.toList.drop source.length, by
      rw [List.length_append, List.length_drop, data.length_eq]
      omega⟩
  else none

/-- The data is written first and the length prefix last. -/
def commitStr {n : ℕ} (w : WireInt) (e : WireEndian) (data : Bytes n) (value : String) :
    Option (Bytes w.bytes × Bytes n) := do
  let data ← copyFromSlice data value.toByteArray.data.toList
  some (w.store e value.utf8ByteSize, data)

/-- The units are stored one by one, two native-endian bytes each. -/
def commitU16Str {n : ℕ} (w : WireInt) (e : WireEndian) (data : Bytes n) (value : List UInt16) :
    Option (Bytes w.bytes × Bytes n) := do
  let data ← copyFromSlice data (nativeBytes value)
  some (w.store e value.length, data)

def commitCStr {n : ℕ} (data : Bytes n) (value : Terminated UInt8) : Option (Bytes n) :=
  copyFromSlice data value.withNul

def commitU16CStr {n : ℕ} (data : Bytes n) (value : Terminated UInt16) : Option (Bytes n) :=
  copyFromSlice data (nativeBytes value.withNul)

/-! ### What a successful proof says, and that a commit can be proved again -/

section
variable {e : WireEndian} {w : WireInt}

theorem activeLength_eq_ok {length : List UInt8} {capacity n : ℕ} :
    activeLength e length capacity = .ok n ↔
      WireInt.raw e length = n ∧ n ≤ capacity ∧ n ≤ usizeMax := by
  unfold activeLength WireInt.load
  split_ifs with h
  · simp only
    split_ifs with hc
    · simp
      omega
    · simp
      omega
  · simp
    omega

omit [Target] in
theorem preflightLengthPrefixed_eq_ok {length capacity : ℕ} :
    preflightLengthPrefixed w length capacity w.bytes = .ok () ↔
      length ≤ capacity ∧ length < 256 ^ w.bytes := by
  unfold preflightLengthPrefixed WireInt.represents
  split_ifs <;> simp_all

omit [Target] in
theorem copyFromSlice_eq_some {n : ℕ} (data : Bytes n) {source : List UInt8}
    (h : source.length ≤ n) :
    ∃ data' : Bytes n, copyFromSlice data source = some data' ∧
      data'.toList = source ++ data.toList.drop source.length :=
  ⟨_, dif_pos h, rfl⟩

omit [Target] in
/-- A copy leaves the bytes behind it alone. -/
theorem copyFromSlice_agree {n : ℕ} {data data' : Bytes n} {source : List UInt8}
    (h : copyFromSlice data source = some data') :
    AgreeOn Bytes.view (Set.Iio source.length)ᶜ data data' := by
  unfold copyFromSlice at h
  split_ifs at h with hle
  obtain rfl := Option.some.inj h
  intro k hk
  have hle' : source.length ≤ k := not_lt.mp hk
  unfold Bytes.view
  rw [List.getElem?_append_right hle', List.getElem?_drop]
  congr 1
  omega

omit [Target] in
theorem fromUTF8?_eq_some {a : ByteArray} {value : String} :
    String.fromUTF8? a = some value ↔ value.toByteArray = a := by
  unfold String.fromUTF8?
  split_ifs with h
  · rw [Option.some.injEq]
    constructor
    · rintro rfl
      rfl
    · rintro rfl
      rfl
  · simp only [false_iff]
    rintro rfl
    exact h value.isValidUTF8

omit [Target] in
theorem length_utf8 (value : String) :
    value.toByteArray.data.toList.length = value.utf8ByteSize := Array.length_toList

theorem proveStr_eq_ok {length data : List UInt8} {value : String} :
    proveStr e length data = .ok value ↔
      activeLength e length data.length = .ok value.utf8ByteSize ∧
        data.take value.utf8ByteSize = value.toByteArray.data.toList := by
  unfold proveStr
  constructor
  · intro h
    cases hn : activeLength e length data.length with
    | error x => simp [hn, bind, Except.bind] at h
    | ok n =>
      simp only [hn, bind, Except.bind] at h
      split at h
      · next value' hv =>
        obtain rfl : value' = value := by simpa using h
        have hbytes := fromUTF8?_eq_some.mp hv
        have htake : value'.toByteArray.data.toList = data.take n := by rw [hbytes]
        have hle := (activeLength_eq_ok.mp hn).2.1
        have hlen : value'.utf8ByteSize = n := by
          rw [← length_utf8, htake, List.length_take]
          omega
        rw [hlen]
        exact ⟨rfl, htake.symm⟩
      · simp at h
  · rintro ⟨hn, htake⟩
    have hv : String.fromUTF8? ⟨(data.take value.utf8ByteSize).toArray⟩ = some value := by
      rw [fromUTF8?_eq_some, htake, Array.toArray_toList]
    simp [hn, hv, bind, Except.bind]

theorem length_nativeBytes (units : List UInt16) : (nativeBytes units).length = units.length * 2 := by
  induction units with
  | nil => rfl
  | cons u units ih =>
    have hcons : nativeBytes (u :: units) = Target.endian.encode 2 u.toNat ++ nativeBytes units := rfl
    rw [hcons, List.length_append, ih, Endian.length_encode, List.length_cons]
    omega

theorem nativeUnits_append (units : List UInt16) (rest : List UInt8) :
    nativeUnits (nativeBytes units ++ rest) = units ++ nativeUnits rest := by
  induction units with
  | nil => rfl
  | cons u units ih =>
    have hu : u.toNat < 256 ^ 2 := u.toNat_lt
    have hcons : nativeBytes (u :: units) = Target.endian.encode 2 u.toNat ++ nativeBytes units := rfl
    have hlen := Endian.length_encode Target.endian 2 u.toNat
    have hdec := Endian.decode_encode_of_lt Target.endian hu
    rw [hcons, List.append_assoc]
    generalize Target.endian.encode 2 u.toNat = pair at hlen hdec
    match pair, hlen with
    | [x, y], _ =>
      simp only [List.cons_append, List.nil_append, nativeUnits, hdec, ih, UInt16.ofNat_toNat]

theorem length_nativeUnits (bytes : List UInt8) : (nativeUnits bytes).length = bytes.length / 2 := by
  induction bytes using nativeUnits.induct with
  | case1 x y rest ih =>
    rw [nativeUnits, List.length_cons, ih, List.length_cons, List.length_cons]
    omega
  | case2 bytes h =>
    match bytes, h with
    | [], _ => rfl
    | [x], _ => simp [nativeUnits]
    | x :: y :: rest, h => exact absurd rfl (h x y rest)

theorem take_nativeUnits (bytes : List UInt8) (k : ℕ) :
    (nativeUnits bytes).take k = nativeUnits (bytes.take (k * 2)) := by
  induction bytes using nativeUnits.induct generalizing k with
  | case1 x y rest ih =>
    cases k with
    | zero => simp [nativeUnits]
    | succ k =>
      have hk : (k + 1) * 2 = k * 2 + 1 + 1 := by omega
      rw [hk, List.take_succ_cons, List.take_succ_cons, nativeUnits, nativeUnits,
        List.take_succ_cons, ih]
  | case2 bytes h =>
    match bytes, h with
    | [], _ => simp [nativeUnits]
    | [x], _ =>
      cases k with
      | zero => simp [nativeUnits]
      | succ k =>
        have hk : (k + 1) * 2 = k * 2 + 1 + 1 := by omega
        simp [hk, nativeUnits]
    | x :: y :: rest, h => exact absurd rfl (h x y rest)

theorem nativeBytes_nativeUnits (bytes : List UInt8) (h : bytes.length % 2 = 0) :
    nativeBytes (nativeUnits bytes) = bytes := by
  induction bytes using nativeUnits.induct with
  | case1 x y rest ih =>
    have hpair := Endian.encode_decode Target.endian [x, y]
    have hlt : Target.endian.decode [x, y] < 256 ^ 2 := Endian.decode_lt Target.endian [x, y]
    have hround : (UInt16.ofNat (Target.endian.decode [x, y])).toNat =
        Target.endian.decode [x, y] := by
      rw [UInt16.toNat_ofNat']
      omega
    have hcons : nativeBytes (nativeUnits (x :: y :: rest)) =
        Target.endian.encode 2 (UInt16.ofNat (Target.endian.decode [x, y])).toNat ++
          nativeBytes (nativeUnits rest) := rfl
    have hrest : rest.length % 2 = 0 := by
      simp only [List.length_cons] at h
      omega
    have hpair' : Target.endian.encode 2 (Target.endian.decode [x, y]) = [x, y] := hpair
    rw [hcons, hround, hpair', ih hrest]
    rfl
  | case2 bytes hshort =>
    match bytes, hshort with
    | [], _ => rfl
    | [x], _ => simp at h
    | x :: y :: rest, hshort => exact absurd rfl (hshort x y rest)

/-- Units that were read are stored in the bytes that they were read from. -/
theorem take_of_units {bytes : List UInt8} {units : List UInt16}
    (hlen : units.length ≤ (nativeUnits bytes).length)
    (h : (nativeUnits bytes).take units.length = units) :
    bytes.take (units.length * 2) = nativeBytes units := by
  rw [length_nativeUnits] at hlen
  have heven : (bytes.take (units.length * 2)).length % 2 = 0 := by
    rw [List.length_take]
    omega
  have hround := nativeBytes_nativeUnits _ heven
  rw [← take_nativeUnits, h] at hround
  exact hround.symm

theorem nativeUnits_replicate_zero (n : ℕ) :
    nativeUnits (List.replicate (n * 2) 0) = List.replicate n 0 := by
  induction n with
  | zero => rfl
  | succ n ih =>
    have h : List.replicate ((n + 1) * 2) (0 : UInt8) = 0 :: 0 :: List.replicate (n * 2) 0 := by
      rw [Nat.succ_mul]
      rfl
    have hz : Target.endian.decode [0, 0] = 0 := Endian.decode_replicate_zero _ 2
    rw [h, nativeUnits, ih, hz]
    rfl

theorem proveU16Str_eq_ok {length : List UInt8} {units value : List UInt16} :
    proveU16Str e length units = .ok value ↔
      activeLength e length units.length = .ok value.length ∧ units.take value.length = value := by
  unfold proveU16Str
  constructor
  · intro h
    cases hn : activeLength e length units.length with
    | error x => simp [hn, bind, Except.bind] at h
    | ok n =>
      obtain rfl : units.take n = value := by simpa [hn, bind, Except.bind] using h
      have hle := (activeLength_eq_ok.mp hn).2.1
      rw [List.length_take, Nat.min_eq_left hle]
      exact ⟨rfl, rfl⟩
  · rintro ⟨hn, htake⟩
    simp [hn, htake, bind, Except.bind]

/-- A stored length and the bytes behind it are read back. -/
theorem proveStr_store {data : List UInt8} {value : String} (hmax : data.length ≤ usizeMax)
    (hle : value.utf8ByteSize ≤ data.length) (hlt : value.utf8ByteSize < 256 ^ w.bytes)
    (htake : data.take value.utf8ByteSize = value.toByteArray.data.toList) :
    proveStr e (w.store e value.utf8ByteSize).toList data = .ok value := by
  rw [proveStr_eq_ok, activeLength_eq_ok, WireInt.raw_store _ _ hlt]
  exact ⟨⟨rfl, hle, hle.trans hmax⟩, htake⟩

theorem proveU16Str_store {units value : List UInt16} (hmax : units.length ≤ usizeMax)
    (hle : value.length ≤ units.length) (hlt : value.length < 256 ^ w.bytes)
    (htake : units.take value.length = value) :
    proveU16Str e (w.store e value.length).toList units = .ok value := by
  rw [proveU16Str_eq_ok, activeLength_eq_ok, WireInt.raw_store _ _ hlt]
  exact ⟨⟨rfl, hle, hle.trans hmax⟩, htake⟩

end

namespace Terminated
variable {α : Type} [OfNat α 0]

omit [Target]

theorem length_withNul (s : Terminated α) : s.withNul.length = s.units.length + 1 := by
  simp [withNul]

variable [DecidableEq α]

theorem takeWhile_withNul (s : Terminated α) (rest : List α) :
    (s.withNul ++ rest).takeWhile (· ≠ 0) = s.units := by
  have h : ∀ u ∈ s.units, (decide (u ≠ 0)) = true := by
    intro u hu
    simp only [ne_eq, decide_eq_true_eq]
    rintro rfl
    exact s.noNul hu
  rw [withNul, List.append_assoc, List.takeWhile_append_of_pos h]
  simp

theorem untilNul_withNul (s : Terminated α) (rest : List α) :
    untilNul (s.withNul ++ rest) = .ok s := by
  have h : (0 : α) ∈ s.withNul ++ rest := by simp [withNul]
  rw [untilNul, if_pos h]
  exact congrArg _ (Terminated.ext (s.takeWhile_withNul rest))

theorem length_le_of_untilNul {data : List α} {s : Terminated α} (h : untilNul data = .ok s) :
    s.withNul.length ≤ data.length := by
  unfold untilNul at h
  split_ifs at h with h0
  obtain rfl := Except.ok.inj h
  have hlt : (data.takeWhile (· ≠ 0)).length < data.length := by
    refine lt_of_le_of_ne (List.takeWhile_prefix _).length_le fun heq => ?_
    have hall := (List.takeWhile_prefix (p := (· ≠ 0)) (l := data)).eq_of_length heq
    have := List.takeWhile_eq_self_iff.mp hall 0 h0
    simp at this
  rw [length_withNul]
  exact hlt

theorem take_of_untilNul {data : List α} {s : Terminated α} (h : untilNul data = .ok s) :
    data.take s.withNul.length = s.withNul := by
  have main : ∀ l : List α, 0 ∈ l →
      l.take ((l.takeWhile (· ≠ 0)).length + 1) = l.takeWhile (· ≠ 0) ++ [0] := by
    intro l
    induction l with
    | nil => simp
    | cons x l ih =>
      intro hmem
      by_cases hx : x = 0
      · subst hx
        simp
      · have hrest : 0 ∈ l := by
          rcases List.mem_cons.mp hmem with heq | hrest
          · exact absurd heq.symm hx
          · exact hrest
        rw [List.takeWhile_cons_of_pos (by simpa using hx), List.length_cons, List.take_succ_cons,
          ih hrest]
        rfl
  unfold untilNul at h
  split_ifs at h with h0
  obtain rfl := Except.ok.inj h
  rw [length_withNul]
  exact main data h0

theorem isOk_untilNul {data : List α} : (∃ s, untilNul data = .ok s) ↔ 0 ∈ data := by
  unfold untilNul
  split_ifs with h <;> simp [h]

end Terminated

end ZeroSchema
