import ZeroSchema.StringField
import ZeroSchema.Library.Codec

/-! The setters of the four string forms over selected slices: the value is checked against the
slices, then its units are written, then its length. Proof reads no further than the value. -/
namespace ZeroSchema
open Storage Control

section
variable {m n : ℕ}

/-- `destination.copy_from_slice(source)`, which panics on another length. -/
def copyExact (_destination : Bytes m) (source : List UInt8) : Option (Bytes m) :=
  if h : source.length = m then some ⟨source, h⟩ else none

theorem copyExact_self (b x : Bytes m) : copyExact b x.toList = some x := dif_pos x.length_eq

/-- The prefix of a commit goes to its slice behind the data. -/
def storePrefix {k : ℕ} (length : Bytes m) (committed : Option (Bytes k × Bytes n)) :
    Option (Bytes m × Bytes n) :=
  committed.bind fun out => (copyExact length out.1.toList).map fun length => (length, out.2)

theorem storePrefix_some (length stored : Bytes m) (data : Bytes n) :
    storePrefix length (some (stored, data)) = some (stored, data) := by
  show Option.map _ (copyExact length stored.toList) = _
  rw [copyExact_self]
  rfl

variable [Target]

def setStr (w : WireInt) (e : WireEndian) (length : Bytes m) (data : Bytes n) (value : String) :
    Option (Except StringMutationError Unit × Bytes m × Bytes n) :=
  checkedWrite (preflightStr w length data value)
    (fun old => storePrefix old.1 (commitStr w e old.2 value)) (length, data)

def setU16Str (w : WireInt) (e : WireEndian) (length : Bytes m) (data : Bytes n)
    (value : List UInt16) : Option (Except StringMutationError Unit × Bytes m × Bytes n) :=
  checkedWrite (preflightU16Str w length data value)
    (fun old => storePrefix old.1 (commitU16Str w e old.2 value)) (length, data)

def setCStr (data : Bytes n) (value : Terminated UInt8) :
    Option (Except StringMutationError Unit × Bytes n) :=
  checkedWrite (preflightCStr data value) (fun data => commitCStr data value) data

def setU16CStr (data : Bytes n) (value : Terminated UInt16) :
    Option (Except StringMutationError Unit × Bytes n) :=
  checkedWrite (preflightU16CStr data value) (fun data => commitU16CStr data value) data

/-- The units are read in place; bytes that are no units are an unreachable branch. -/
def proveU16StrBytes (e : WireEndian) (capacity : ℕ) (length : List UInt8) (bytes : Slice n) :
    Outcome StringProofError (List UInt16) :=
  match refU16s capacity bytes with
  | none => .unreachable
  | some units => .ofExcept (proveU16Str e length units)

def proveU16CStrBytes (capacity : ℕ) (bytes : Slice n) :
    Outcome StringProofError (Terminated UInt16) :=
  match refU16s capacity bytes with
  | none => .unreachable
  | some units => .ofExcept (proveU16CStr units)

/-! ### Slices that no string form has -/

omit [Target] in
theorem preflightLengthPrefixed_size {w : WireInt} (h : m ≠ w.bytes) (length capacity : ℕ) :
    preflightLengthPrefixed w length capacity m = .error (.prefixSize w.bytes m) := if_pos h

theorem setStr_size {w : WireInt} (h : m ≠ w.bytes) (e : WireEndian) (length : Bytes m)
    (data : Bytes n) (value : String) :
    setStr w e length data value = some (.error (.prefixSize w.bytes m), length, data) := by
  unfold setStr preflightStr
  rw [preflightLengthPrefixed_size h]
  rfl

theorem setU16Str_size {w : WireInt} (h : m ≠ w.bytes) (heven : n % 2 = 0) (e : WireEndian)
    (length : Bytes m) (data : Bytes n) (value : List UInt16) :
    setU16Str w e length data value = some (.error (.prefixSize w.bytes m), length, data) := by
  have hcap : wideCapacity n = .ok (n / 2) := if_neg (by omega)
  unfold setU16Str preflightU16Str
  rw [hcap]
  show checkedWrite (preflightLengthPrefixed w value.length (n / 2) m) _ _ = _
  rw [preflightLengthPrefixed_size h]
  rfl

omit [Target] in
/-- An odd number of bytes is no unit storage. -/
theorem wideCapacity_odd (h : n % 2 ≠ 0) : wideCapacity n = .error (.wideByteSize n) := if_pos h

omit [Target] in
theorem wideCapacity_double (n : ℕ) : wideCapacity (n * 2) = .ok n := by
  unfold wideCapacity
  rw [if_neg (by omega), Nat.mul_div_cancel n two_pos]

theorem setU16Str_odd (h : n % 2 ≠ 0) (w : WireInt) (e : WireEndian) (length : Bytes m)
    (data : Bytes n) (value : List UInt16) :
    setU16Str w e length data value = some (.error (.wideByteSize n), length, data) := by
  unfold setU16Str preflightU16Str
  rw [wideCapacity_odd h]
  rfl

theorem setU16CStr_odd (h : n % 2 ≠ 0) (data : Bytes n) (value : Terminated UInt16) :
    setU16CStr data value = some (.error (.wideByteSize n), data) := by
  unfold setU16CStr preflightU16CStr
  rw [wideCapacity_odd h]
  rfl

/-! ### What proof looks at -/

section
variable {e : WireEndian} {length : List UInt8}

/-- Nothing behind the active length decides anything. -/
theorem proveStr_congr {data data' : List UInt8} (hlength : data'.length = data.length)
    (h : WireInt.raw e length ≤ data.length →
      data'.take (WireInt.raw e length) = data.take (WireInt.raw e length)) :
    proveStr e length data' = proveStr e length data := by
  unfold proveStr
  rw [hlength]
  cases hact : activeLength e length data.length with
  | error err => rfl
  | ok k =>
    obtain ⟨rfl, hle, -⟩ := activeLength_eq_ok.mp hact
    simp only [bind, Except.bind]
    rw [h hle]

theorem proveU16Str_congr {units units' : List UInt16} (hlength : units'.length = units.length)
    (h : WireInt.raw e length ≤ units.length →
      units'.take (WireInt.raw e length) = units.take (WireInt.raw e length)) :
    proveU16Str e length units' = proveU16Str e length units := by
  unfold proveU16Str
  rw [hlength]
  cases hact : activeLength e length units.length with
  | error err => rfl
  | ok k =>
    obtain ⟨rfl, hle, -⟩ := activeLength_eq_ok.mp hact
    simp only [bind, Except.bind]
    rw [h hle]

end

end


namespace Terminated
variable {α : Type} [OfNat α 0] [DecidableEq α] {l l' : List α}

/-- The units up to the first terminator decide everything. -/
theorem untilNul_congr (hlength : l'.length = l.length)
    (h : l'.take ((l.takeWhile (· ≠ 0)).length + 1) = l.take ((l.takeWhile (· ≠ 0)).length + 1)) :
    untilNul l' = untilNul l := by
  by_cases hmem : 0 ∈ l
  · obtain ⟨s, hs⟩ := isOk_untilNul.mpr hmem
    have hunits : l.takeWhile (· ≠ 0) = s.units := by
      unfold untilNul at hs
      rw [if_pos hmem] at hs
      exact congrArg units (Except.ok.inj hs)
    have hstart : l'.take s.withNul.length = s.withNul := by
      rw [← take_of_untilNul hs, take_of_untilNul hs, length_withNul, ← hunits, h, hunits,
        ← length_withNul, take_of_untilNul hs]
    rw [hs, ← List.take_append_drop s.withNul.length l', hstart]
    exact untilNul_withNul s _
  · have hall : l.takeWhile (· ≠ 0) = l := by
      rw [List.takeWhile_eq_self_iff]
      intro x hx
      have hne : x ≠ 0 := fun h0 => hmem (h0 ▸ hx)
      simpa using hne
    rw [hall, List.take_of_length_le (by omega), List.take_of_length_le (by omega)] at h
    rw [h]

end Terminated

namespace StringIr

abbrev lengthBytes : StringIr → ℕ
  | str w _ _ | u16Str w _ _ => w.bytes
  | cStr _ | u16CStr _ => 0

variable [Target]

abbrev dataLayout : StringIr → Layout
  | str _ _ n | cStr n => byteData n
  | u16Str _ _ n | u16CStr n => unitData n

/-- The selected storage of a form; a terminated one has no length prefix. -/
structure Slices (s : StringIr) where
  length : Bytes s.lengthBytes
  data : Input s.dataLayout

/-- The value in a length prefix and data of the declared capacity. -/
def proveData (s : StringIr) (length data : List UInt8) : Except StringProofError s.Value :=
  match s with
  | str _ e _ => proveStr e length data
  | cStr _ => proveCStr data
  | u16Str _ e _ => proveU16Str e length (nativeUnits data)
  | u16CStr _ => proveU16CStr (nativeUnits data)

/-- How many of the data bytes count: those of the active length, when it is in bounds, or
those up to the first terminator. -/
def activeBytes (s : StringIr) (length data : List UInt8) : ℕ :=
  match s with
  | str _ e n => if WireInt.raw e length ≤ n then WireInt.raw e length else 0
  | cStr _ => (data.takeWhile (· ≠ 0)).length + 1
  | u16Str _ e n => (if WireInt.raw e length ≤ n then WireInt.raw e length else 0) * 2
  | u16CStr _ => (((nativeUnits data).takeWhile (· ≠ 0)).length + 1) * 2

theorem proveData_congr (s : StringIr) {length data data' : List UInt8}
    (hsize : data.length = s.dataLayout.size) (hsize' : data'.length = s.dataLayout.size)
    (h : data'.take (s.activeBytes length data) = data.take (s.activeBytes length data)) :
    s.proveData length data' = s.proveData length data := by
  have hlength : data'.length = data.length := hsize'.trans hsize.symm
  have hunits : (nativeUnits data').length = (nativeUnits data).length := by
    rw [length_nativeUnits, length_nativeUnits, hlength]
  cases s with
  | str w e n =>
    apply proveStr_congr hlength
    intro hle
    rw [hsize] at hle
    have hle' : WireInt.raw e length ≤ n := hle
    simpa only [activeBytes, if_pos hle'] using h
  | cStr n => exact Terminated.untilNul_congr hlength h
  | u16Str w e n =>
    apply proveU16Str_congr hunits
    intro hle
    rw [length_nativeUnits, hsize] at hle
    have hle' : WireInt.raw e length ≤ n := hle.trans (Nat.mul_div_cancel n two_pos).le
    rw [take_nativeUnits, take_nativeUnits]
    simp only [activeBytes, if_pos hle'] at h
    rw [h]
  | u16CStr n =>
    apply Terminated.untilNul_congr hunits
    rw [take_nativeUnits, take_nativeUnits]
    exact congrArg nativeUnits h

/-! ### The selected slices as one store -/

/-- The bytes by the slice they are in. -/
def Slices.view {s : StringIr} (x : s.Slices) : ℕ ⊕ ℕ → Option UInt8
  | .inl k => x.length.view k
  | .inr k => x.data.bytes.view k

/-- The length prefix and so many data bytes. -/
def leading (k : ℕ) : Set (ℕ ⊕ ℕ) := {i | ∀ j, i = .inr j → j < k}

/-- How many data bytes a value takes, with its terminator. -/
def valueBytes (s : StringIr) (value : s.Value) : ℕ :=
  match s, value with
  | str _ _ _, value => String.utf8ByteSize value
  | cStr _, value => (Terminated.withNul value).length
  | u16Str _ _ _, value => List.length value * 2
  | u16CStr _, value => (Terminated.withNul value).length * 2

def Slices.slice {s : StringIr} (x : s.Slices) : Slice s.dataLayout.size :=
  ⟨x.data.address, x.data.bytes, x.data.fits⟩

def setSlices (s : StringIr) (x : s.Slices) (value : s.Value) :
    Option (Except StringMutationError Unit × s.Slices) :=
  match s, x, value with
  | str w e _, x, value => (setStr w e x.length x.data.bytes value).map
      fun (result, length, data) => (result, ⟨length, x.data.overwrite data⟩)
  | cStr _, x, value => (setCStr x.data.bytes value).map
      fun (result, data) => (result, ⟨x.length, x.data.overwrite data⟩)
  | u16Str w e _, x, value => (setU16Str w e x.length x.data.bytes value).map
      fun (result, length, data) => (result, ⟨length, x.data.overwrite data⟩)
  | u16CStr _, x, value => (setU16CStr x.data.bytes value).map
      fun (result, data) => (result, ⟨x.length, x.data.overwrite data⟩)

def proveSlices (s : StringIr) (x : s.Slices) : Outcome StringProofError s.Value :=
  match s, x with
  | str _ e _, x => .ofExcept (proveStr e x.length.toList x.data.bytes.toList)
  | cStr _, x => .ofExcept (proveCStr x.data.bytes.toList)
  | u16Str _ e n, x => proveU16StrBytes e n x.length.toList x.slice
  | u16CStr n, x => proveU16CStrBytes n x.slice

/-- The write behind the check. -/
def commitSlices (s : StringIr) (value : s.Value) (x : s.Slices) : Option s.Slices :=
  match s, value, x with
  | str w e _, value, x =>
    (storePrefix x.length (commitStr w e x.data.bytes value)).map fun out =>
      ⟨out.1, x.data.overwrite out.2⟩
  | cStr _, value, x => (commitCStr x.data.bytes value).map fun data => ⟨x.length, x.data.overwrite data⟩
  | u16Str w e _, value, x =>
    (storePrefix x.length (commitU16Str w e x.data.bytes value)).map fun out =>
      ⟨out.1, x.data.overwrite out.2⟩
  | u16CStr _, value, x =>
    (commitU16CStr x.data.bytes value).map fun data => ⟨x.length, x.data.overwrite data⟩

section
variable {s : StringIr}

theorem refU16s_selected {n : ℕ} (input : Input (unitData n)) :
    refU16s n (⟨input.address, input.bytes, input.fits⟩ : Slice (n * 2)) =
      some (nativeUnits input.bytes.toList) := if_pos ⟨rfl, input.aligned⟩

/-- Selected slices are aligned, so the units can be read in place. -/
theorem proveSlices_eq (x : s.Slices) :
    s.proveSlices x = .ofExcept (s.proveData x.length.toList x.data.bytes.toList) := by
  cases s with
  | str | cStr => rfl
  | u16Str w e n =>
    show proveU16StrBytes e n x.length.toList x.slice = _
    unfold proveU16StrBytes
    rw [Slices.slice, refU16s_selected]
    rfl
  | u16CStr n =>
    show proveU16CStrBytes n x.slice = _
    unfold proveU16CStrBytes
    rw [Slices.slice, refU16s_selected]
    rfl

theorem proveSlices_of_data {x : s.Slices} {value : s.Value}
    (h : s.proveData x.length.toList x.data.bytes.toList = .ok value) :
    s.proveSlices x = .ok value := by
  rw [proveSlices_eq, h]
  rfl

/-- Every setter is its check and then its write. -/
theorem setSlices_eq (x : s.Slices) (value : s.Value) :
    s.setSlices x value = checkedWrite (s.check value) (s.commitSlices value) x := by
  cases s with
  | str w e n =>
    let f : Bytes w.bytes × Bytes n → (str w e n).Slices := fun old =>
      ⟨old.1, x.data.overwrite old.2⟩
    exact checkedWrite_map (f := f) (s := (x.length, x.data.bytes)) rfl
  | cStr n =>
    exact checkedWrite_map (f := fun data => (⟨x.length, x.data.overwrite data⟩ : (cStr n).Slices))
      rfl
  | u16Str w e n =>
    let f : Bytes w.bytes × Bytes (n * 2) → (u16Str w e n).Slices := fun old =>
      ⟨old.1, x.data.overwrite old.2⟩
    have hpre : preflightU16Str w x.length x.data.bytes value = (u16Str w e n).check value := by
      unfold preflightU16Str
      rw [wideCapacity_double]
      rfl
    show Option.map _ (checkedWrite (preflightU16Str w x.length x.data.bytes value) _ _) = _
    rw [hpre]
    exact checkedWrite_map (f := f) (s := (x.length, x.data.bytes)) rfl
  | u16CStr n =>
    exact checkedWrite_map
      (f := fun data => (⟨x.length, x.data.overwrite data⟩ : (u16CStr n).Slices)) rfl

/-! ### The laws of the four forms -/

theorem agreeOn_leading {x x' : s.Slices} {k : ℕ}
    (h : AgreeOn Bytes.view (Set.Iio k)ᶜ x.data.bytes x'.data.bytes) :
    AgreeOn Slices.view (leading k)ᶜ x x' := by
  intro i hi
  cases i with
  | inl j =>
    have hmem : (Sum.inl j : ℕ ⊕ ℕ) ∈ leading k := by
      intro j' hj
      cases hj
    exact absurd hmem hi
  | inr j =>
    apply h
    intro hlt
    apply hi
    intro j' hj
    have heq : j = j' := Sum.inr.inj hj
    have hlt' : j < k := hlt
    omega

theorem agreeOn_leading_left {x x' : s.Slices} {k : ℕ} (h : AgreeOn Slices.view (leading k) x x') :
    x'.length = x.length ∧ AgreeOn Bytes.view (Set.Iio k) x.data.bytes x'.data.bytes := by
  constructor
  · apply Bytes.eq_of_view
    intro j
    apply h (.inl j)
    intro j' hj
    cases hj
  · intro j hlt
    apply h (.inr j)
    intro j' hj
    have heq : j = j' := Sum.inr.inj hj
    have hlt' : j < k := hlt
    omega

/-- A value that fits is written without a panic, read back, and nothing behind it changes. -/
theorem commitSlices_spec (x : s.Slices) {value : s.Value} (h : s.Fits value) :
    ∃ x', s.commitSlices value x = some x' ∧ s.proveSlices x' = .ok value ∧
      AgreeOn Slices.view (leading (s.valueBytes value))ᶜ x x' := by
  have hmax : s.dataLayout.size ≤ usizeMax := x.data.le_usizeMax (Place.whole s.dataLayout).toCell
  cases s with
  | str w e n =>
    have hsize : (String.toByteArray value).data.toList.length ≤ n := by
      rw [length_utf8]
      exact h.1
    obtain ⟨data, hcopy, hdata⟩ := copyFromSlice_eq_some x.data.bytes hsize
    have hcommit : commitStr w e x.data.bytes value =
        some (w.store e (String.utf8ByteSize value), data) := by
      unfold commitStr
      rw [hcopy]
      rfl
    have hlen : data.toList.length = n := data.length_eq
    refine ⟨⟨w.store e (String.utf8ByteSize value), x.data.overwrite data⟩, ?_, ?_, ?_⟩
    · show (storePrefix x.length (commitStr w e x.data.bytes value)).map _ = _
      rw [hcommit, storePrefix_some]
      rfl
    · apply proveSlices_of_data
      apply proveStr_store
      · exact hlen.trans_le hmax
      · exact h.1.trans hlen.ge
      · exact h.2
      · show data.toList.take _ = _
        rw [hdata, ← length_utf8, List.take_left]
    · apply agreeOn_leading
      have hagree := copyFromSlice_agree hcopy
      rwa [length_utf8] at hagree
  | cStr n =>
    obtain ⟨data, hcopy, hdata⟩ := copyFromSlice_eq_some x.data.bytes h
    refine ⟨⟨x.length, x.data.overwrite data⟩, ?_, ?_, ?_⟩
    · show (copyFromSlice x.data.bytes _).map _ = _
      rw [hcopy]
      rfl
    · apply proveSlices_of_data
      show Terminated.untilNul data.toList = _
      rw [hdata]
      exact Terminated.untilNul_withNul _ _
    · apply agreeOn_leading
      exact copyFromSlice_agree hcopy
  | u16Str w e n =>
    have hsize : (nativeBytes value).length ≤ n * 2 := by
      rw [length_nativeBytes]
      exact Nat.mul_le_mul_right 2 h.1
    obtain ⟨data, hcopy, hdata⟩ := copyFromSlice_eq_some x.data.bytes hsize
    have hcommit : commitU16Str w e x.data.bytes value =
        some (w.store e (List.length value), data) := by
      unfold commitU16Str
      rw [hcopy]
      rfl
    have hlen : (nativeUnits data.toList).length = n := by
      rw [length_nativeUnits, data.length_eq]
      exact Nat.mul_div_cancel n two_pos
    refine ⟨⟨w.store e (List.length value), x.data.overwrite data⟩, ?_, ?_, ?_⟩
    · show (storePrefix x.length (commitU16Str w e x.data.bytes value)).map _ = _
      rw [hcommit, storePrefix_some]
      rfl
    · apply proveSlices_of_data
      apply proveU16Str_store
      · have hmax' : n * 2 ≤ usizeMax := hmax
        show (nativeUnits data.toList).length ≤ usizeMax
        omega
      · exact h.1.trans hlen.ge
      · exact h.2
      · show (nativeUnits data.toList).take _ = _
        rw [hdata, nativeUnits_append, List.take_left]
    · apply agreeOn_leading
      have hagree := copyFromSlice_agree hcopy
      rwa [length_nativeBytes] at hagree
  | u16CStr n =>
    have hsize : (nativeBytes (Terminated.withNul value)).length ≤ n * 2 := by
      rw [length_nativeBytes]
      exact Nat.mul_le_mul_right 2 h
    obtain ⟨data, hcopy, hdata⟩ := copyFromSlice_eq_some x.data.bytes hsize
    refine ⟨⟨x.length, x.data.overwrite data⟩, ?_, ?_, ?_⟩
    · show (copyFromSlice x.data.bytes _).map _ = _
      rw [hcopy]
      rfl
    · apply proveSlices_of_data
      show Terminated.untilNul (nativeUnits data.toList) = _
      rw [hdata, nativeUnits_append]
      exact Terminated.untilNul_withNul _ _
    · apply agreeOn_leading
      have hagree := copyFromSlice_agree hcopy
      rwa [length_nativeBytes] at hagree

/-- The data bytes proof reads, and the prefix. -/
def readSlices (s : StringIr) (x : s.Slices) : Set (ℕ ⊕ ℕ) :=
  leading (s.activeBytes x.length.toList x.data.bytes.toList)

theorem proveSlices_congr {x x' : s.Slices} (h : AgreeOn Slices.view (s.readSlices x) x x') :
    s.proveSlices x' = s.proveSlices x := by
  have hlength := (agreeOn_leading_left h).1
  have hdata := Bytes.agreeOn_Iio.mp (agreeOn_leading_left h).2
  rw [proveSlices_eq, proveSlices_eq, hlength]
  apply congrArg Outcome.ofExcept
  exact s.proveData_congr x.data.bytes.length_eq x'.data.bytes.length_eq hdata

/-- A set that succeeds on exactly the values that fit, is proved back, and leaves the rest. -/
theorem roundTrip_slices (s : StringIr) :
    RoundTrip Slices.view s.setSlices s.proveSlices s.Fits
      (fun value => leading (s.valueBytes value)) s.readSlices := by
  apply RoundTrip.of_checkedWrite s.check s.commitSlices
  · intro x value
    exact setSlices_eq x value
  · intro value
    exact check_eq_ok
  · intro x value h
    exact commitSlices_spec x h
  · intro x x' h
    exact proveSlices_congr h

end

end StringIr

end ZeroSchema
