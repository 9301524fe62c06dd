import ZeroSchema.Strings

/-! String fields and string array elements: the wire of each form, the generated read,
preflight and commit over it, and the values each form can hold. -/
namespace ZeroSchema
open Storage Control

inductive StringIr
  | str (lenType : WireInt) (endian : WireEndian) (capacity : ℕ)
  | cStr (capacity : ℕ)
  | u16Str (lenType : WireInt) (endian : WireEndian) (capacity : ℕ)
  | u16CStr (capacity : ℕ)
deriving DecidableEq

/-- Reports a failed proof as the leaf error of its field or element. -/
def Context.onProof {α : Type} (ctx : Context) : Except StringProofError α → Outcome SchemaError α
  | .ok value => .ok value
  | .error error => .err (ctx.leaf error.kind)

def Context.onMutation (ctx : Context) :
    Except StringMutationError Unit → Outcome SchemaError Unit
  | .ok () => .ok ()
  | .error error => .err (ctx.leaf error.kind)

theorem Context.onProof_eq_ok {α : Type} {ctx : Context} {x : Except StringProofError α} {a : α} :
    ctx.onProof x = .ok a ↔ x = .ok a := by
  cases x <;> simp [onProof]

theorem Context.onMutation_eq_ok {ctx : Context} {x : Except StringMutationError Unit} :
    ctx.onMutation x = .ok () ↔ x = .ok () := by
  cases x <;> simp [onMutation]

namespace StringIr

/-- A borrowed string of the form; the unprefixed forms are terminated. -/
abbrev Value : StringIr → Type
  | str _ _ _ => String
  | cStr _ => Terminated UInt8
  | u16Str _ _ _ => List UInt16
  | u16CStr _ => Terminated UInt16

def capacity : StringIr → ℕ
  | str _ _ n | cStr n | u16Str _ _ n | u16CStr n => n

/-- A terminated form needs room for its terminator. -/
def Accepted : StringIr → Prop
  | str _ _ _ | u16Str _ _ _ => True
  | cStr n | u16CStr n => n ≠ 0

instance (s : StringIr) : Decidable s.Accepted :=
  match s with
  | str _ _ _ | u16Str _ _ _ => inferInstanceAs (Decidable True)
  | cStr n | u16CStr n => inferInstanceAs (Decidable (n ≠ 0))

variable [Target]

/-- The members of a length-prefixed wire. -/
abbrev members (w : WireInt) (data : Layout) : Fin 2 → Layout
  | 0 => w.layout
  | 1 => data

abbrev byteData (n : ℕ) : Layout := ⟨n, 0, one_dvd n⟩

abbrev unitData (n : ℕ) : Layout :=
  ⟨n * 2, Target.logAlign16, Dvd.dvd.mul_left Width.w16.layout.dvd n⟩

abbrev wire : StringIr → Layout
  | str w _ n => Layout.record (members w (byteData n))
  | cStr n => byteData n
  | u16Str w _ n => Layout.record (members w (unitData n))
  | u16CStr n => unitData n

def lenPlace (w : WireInt) (data : Layout) : Place (Layout.record (members w data)) w.layout :=
  Place.field (members w data) 0

def dataPlace (w : WireInt) (data : Layout) : Place (Layout.record (members w data)) data :=
  Place.field (members w data) 1

/-- Decodes the active value. `ref_from_bytes` failing on a wide form is unreachable. -/
def read (s : StringIr) (ctx : Context) (input : Input s.wire) : Outcome SchemaError s.Value :=
  match s, input with
  | str w e n, input => do
    let length ← ctx.onLayout (input.subrange w.layout (lenPlace w (byteData n)).offset)
    let data ← ctx.onLayout (input.subrangeBytes (dataPlace w (byteData n)).offset n)
    ctx.onProof (proveStr e length.bytes.toList data.bytes.toList)
  | cStr n, input => do
    let data ← ctx.onLayout (input.subrangeBytes 0 n)
    ctx.onProof (proveCStr data.bytes.toList)
  | u16Str w e n, input => do
    let length ← ctx.onLayout (input.subrange w.layout (lenPlace w (unitData n)).offset)
    let data ← ctx.onLayout (input.subrangeBytes (dataPlace w (unitData n)).offset (n * 2))
    match refU16s n data with
    | none => .unreachable
    | some units => ctx.onProof (proveU16Str e length.bytes.toList units)
  | u16CStr n, input => do
    let data ← ctx.onLayout (input.subrangeBytes 0 (n * 2))
    match refU16s n data with
    | none => .unreachable
    | some units => ctx.onProof (proveU16CStr units)

/-- Checks a new value against the selected field without touching it. -/
def preflight (s : StringIr) (ctx : Context) (input : Input s.wire) (value : s.Value) :
    Outcome SchemaError Unit :=
  match s, input, value with
  | str w _ n, input, value => do
    let length ← ctx.onLayout (input.subrangeBytes (lenPlace w (byteData n)).offset w.bytes)
    let data ← ctx.onLayout (input.subrangeBytes (dataPlace w (byteData n)).offset n)
    ctx.onMutation (preflightStr w length.bytes data.bytes value)
  | cStr n, input, value => do
    let data ← ctx.onLayout (input.subrangeBytes 0 n)
    ctx.onMutation (preflightCStr data.bytes value)
  | u16Str w _ n, input, value => do
    let length ← ctx.onLayout (input.subrangeBytes (lenPlace w (unitData n)).offset w.bytes)
    let data ← ctx.onLayout (input.subrangeBytes (dataPlace w (unitData n)).offset (n * 2))
    ctx.onMutation (preflightU16Str w length.bytes data.bytes value)
  | u16CStr n, input, value => do
    let data ← ctx.onLayout (input.subrangeBytes 0 (n * 2))
    ctx.onMutation (preflightU16CStr data.bytes value)

/-- Selects the data and the prefix of a length-prefixed wire for one write of both. -/
def commitPrefixed (w : WireInt) (data : Layout) (input : Input (Layout.record (members w data)))
    (write : Bytes data.size → Option (Bytes w.bytes × Bytes data.size)) :
    Option (Input (Layout.record (members w data))) := do
  let old ← (input.subrangeBytes (dataPlace w data).offset data.size).toOption
  let (length, bytes) ← write old.bytes
  let input := input.releaseBytes (dataPlace w data).offset bytes
  some (input.releaseBytes (lenPlace w data).offset length)

/-- Writes a preflighted value and leaves the unused capacity as it was. -/
def commit (s : StringIr) (input : Input s.wire) (value : s.Value) : Option (Input s.wire) :=
  match s, input, value with
  | str w e n, input, value =>
    commitPrefixed w (byteData n) input fun data => commitStr w e data value
  | cStr n, input, value => input.subrangeBytesMut 0 n fun data => commitCStr data value
  | u16Str w e n, input, value =>
    commitPrefixed w (unitData n) input fun data => commitU16Str w e data value
  | u16CStr n, input, value => input.subrangeBytesMut 0 (n * 2) fun data => commitU16CStr data value

/-! ### The value a wire represents -/

/-- What the bytes alone say, apart from how they are selected. -/
def decode (s : StringIr) (b : Bytes s.wire.size) : Except StringProofError s.Value :=
  match s, b with
  | str w e n, b =>
    proveStr e ((lenPlace w (byteData n)).get b).toList ((dataPlace w (byteData n)).get b).toList
  | cStr _, b => proveCStr b.toList
  | u16Str w e n, b =>
    proveU16Str e ((lenPlace w (unitData n)).get b).toList
      (nativeUnits ((dataPlace w (unitData n)).get b).toList)
  | u16CStr _, b => proveU16CStr (nativeUnits b.toList)

/-- The values the capacity and the prefix width leave room for. -/
def Fits (s : StringIr) (value : s.Value) : Prop :=
  match s, value with
  | str w _ n, value => String.utf8ByteSize value ≤ n ∧ String.utf8ByteSize value < 256 ^ w.bytes
  | cStr n, value => (Terminated.withNul value).length ≤ n
  | u16Str w _ n, value => List.length value ≤ n ∧ List.length value < 256 ^ w.bytes
  | u16CStr n, value => (Terminated.withNul value).length ≤ n

/-- A prefix at most the capacity with well-formed text behind it, or a terminator. -/
def Valid (s : StringIr) (b : Bytes s.wire.size) : Prop :=
  match s, b with
  | str w e n, b =>
    let length := WireInt.raw e ((lenPlace w (byteData n)).get b).toList
    length ≤ n ∧ ByteArray.IsValidUTF8
      ⟨(((dataPlace w (byteData n)).get b).toList.take length).toArray⟩
  | cStr _, b => 0 ∈ b.toList
  | u16Str w e n, b => WireInt.raw e ((lenPlace w (unitData n)).get b).toList ≤ n
  | u16CStr _, b => 0 ∈ nativeUnits b.toList

/-- The check that every preflight makes, whatever the selected bytes are. -/
def check (s : StringIr) (value : s.Value) : Except StringMutationError Unit :=
  match s, value with
  | str w _ n, value => preflightLengthPrefixed w (String.utf8ByteSize value) n w.bytes
  | cStr n, value => preflightCStr (Bytes.zero n) value
  | u16Str w _ n, value => preflightLengthPrefixed w (List.length value) n w.bytes
  | u16CStr n, value => preflightU16CStr (Bytes.zero (n * 2)) value

instance (s : StringIr) (b : Bytes s.wire.size) : Decidable (s.Valid b) :=
  match s, b with
  | str _ _ _, _ => inferInstanceAs (Decidable (_ ∧ _))
  | cStr _, b => inferInstanceAs (Decidable (0 ∈ b.toList))
  | u16Str _ _ n, _ => inferInstanceAs (Decidable (_ ≤ n))
  | u16CStr _, b => inferInstanceAs (Decidable (0 ∈ nativeUnits b.toList))

section
variable {s : StringIr}

omit [Target] in
theorem check_eq_ok {value : s.Value} : s.check value = .ok () ↔ s.Fits value := by
  cases s with
  | str w e n => exact preflightLengthPrefixed_eq_ok
  | cStr n =>
    simp only [check, preflightCStr, Fits]
    split_ifs <;> simp <;> omega
  | u16Str w e n => exact preflightLengthPrefixed_eq_ok
  | u16CStr n =>
    have h : wideCapacity (n * 2) = .ok n := by
      rw [wideCapacity, if_neg (by omega)]
      congr 1
      omega
    simp only [check, preflightU16CStr, Fits, h, bind, Except.bind]
    split_ifs <;> simp <;> omega

theorem onLayout_whole (ctx : Context) {data : Layout} (input : Input data) :
    ctx.onLayout (input.subrangeBytes 0 data.size) = .ok (input.slice (Place.whole data).toCell) :=
  ctx.onLayout_subrangeBytes input (Place.whole data).toCell

private theorem refU16s_slice {W : Layout} (input : Input W) {n : ℕ} (p : Place W (unitData n)) :
    refU16s n (input.slice p.toCell) = some (nativeUnits (p.get input.bytes).toList) :=
  if_pos ⟨rfl, (input.child p).aligned⟩

/-- The generated read is the decoding of the bytes; no branch of it is unreachable. -/
theorem read_eq (ctx : Context) (input : Input s.wire) :
    s.read ctx input = ctx.onProof (s.decode input.bytes) := by
  cases s with
  | str w e n =>
    rw [read, ctx.onLayout_subrange, Outcome.ok_bind,
      ctx.onLayout_subrangeBytes input (dataPlace w (byteData n)).toCell, Outcome.ok_bind]
    rfl
  | cStr n =>
    rw [read, onLayout_whole ctx input, Outcome.ok_bind]
    change ctx.onProof (proveCStr ((Place.whole (byteData n)).get input.bytes).toList) = _
    rw [Place.get_whole]
    rfl
  | u16Str w e n =>
    rw [read, ctx.onLayout_subrange, Outcome.ok_bind,
      ctx.onLayout_subrangeBytes input (dataPlace w (unitData n)).toCell, Outcome.ok_bind]
    rw [refU16s_slice]
    rfl
  | u16CStr n =>
    rw [read, onLayout_whole ctx input, Outcome.ok_bind]
    rw [refU16s_slice, Place.get_whole]
    rfl

theorem preflight_eq (ctx : Context) (input : Input s.wire) (value : s.Value) :
    s.preflight ctx input value = ctx.onMutation (s.check value) := by
  cases s with
  | str w e n =>
    rw [preflight, ctx.onLayout_subrangeBytes input (lenPlace w (byteData n)).toCell,
      Outcome.ok_bind, ctx.onLayout_subrangeBytes input (dataPlace w (byteData n)).toCell,
      Outcome.ok_bind]
    rfl
  | cStr n =>
    rw [preflight, onLayout_whole ctx input, Outcome.ok_bind]
    rfl
  | u16Str w e n =>
    have h : wideCapacity (n * 2) = .ok n := by
      rw [wideCapacity, if_neg (by omega)]
      congr 1
      omega
    rw [preflight, ctx.onLayout_subrangeBytes input (lenPlace w (unitData n)).toCell,
      Outcome.ok_bind, ctx.onLayout_subrangeBytes input (dataPlace w (unitData n)).toCell,
      Outcome.ok_bind, preflightU16Str, h]
    rfl
  | u16CStr n =>
    rw [preflight, onLayout_whole ctx input, Outcome.ok_bind]
    rfl

theorem preflight_eq_ok {ctx : Context} {input : Input s.wire} {value : s.Value} :
    s.preflight ctx input value = .ok () ↔ s.Fits value := by
  rw [preflight_eq, Context.onMutation_eq_ok, check_eq_ok]

/-! ### Commit and decode agree -/

theorem commitPrefixed_eq {w : WireInt} {data : Layout}
    {input : Input (Layout.record (members w data))}
    (f : Bytes data.size → Option (Bytes w.bytes × Bytes data.size))
    {x : Bytes data.size} {y : Bytes w.bytes}
    (h : f ((dataPlace w data).get input.bytes) = some (y, x)) :
    commitPrefixed w data input f =
      some ((input.put (dataPlace w data).toCell x).put (lenPlace w data).toCell y) := by
  rw [commitPrefixed, input.subrangeBytes_cell (dataPlace w data).toCell]
  change (f ((dataPlace w data).get input.bytes) >>= _) = _
  rw [h]
  simp only [bind, Option.bind]
  rw [input.releaseBytes_cell (dataPlace w data).toCell]
  exact congrArg some (Input.releaseBytes_cell _ (lenPlace w data).toCell y)

private theorem get_data_released {w : WireInt} {data : Layout}
    (b : Bytes (Layout.record (members w data)).size) (x : Bytes data.size) (y : Bytes w.bytes) :
    (dataPlace w data).get ((lenPlace w data).put ((dataPlace w data).put b x) y) = x := by
  have h : Disjoint (dataPlace w data).region (lenPlace w data).region :=
    Place.field_disjoint (by decide)
  rw [Cell.get_put_of_disjoint h, Cell.get_put]

omit [Target] in
private theorem take_source {n : ℕ} {data data' : Bytes n} {source : List UInt8}
    (h : data'.toList = source ++ data.toList.drop source.length) :
    data'.toList.take source.length = source := by
  rw [h, List.take_left']
  rfl

theorem commitWhole_eq {data : Layout} {input : Input data} {x : Bytes data.size}
    (f : Bytes data.size → Option (Bytes data.size)) (h : f input.bytes = some x) :
    input.subrangeBytesMut 0 data.size f = some (input.put (Place.whole data).toCell x) := by
  have hsel := input.subrangeBytesMut_cell (Place.whole data).toCell f
  rw [Place.get_whole, h] at hsel
  exact hsel

/-- A value that fits is committed without a panic and is what the wire then represents. -/
theorem commit_spec (input : Input s.wire) {value : s.Value} (h : s.Fits value) :
    ∃ input', s.commit input value = some input' ∧ s.decode input'.bytes = .ok value := by
  cases s with
  | str w e n =>
    have hsize : (String.toByteArray value).data.toList.length ≤ n := by
      rw [length_utf8]
      exact h.1
    obtain ⟨data', hcopy, hdata⟩ :=
      copyFromSlice_eq_some ((dataPlace w (byteData n)).get input.bytes) hsize
    have hcommit : commitStr w e ((dataPlace w (byteData n)).get input.bytes) value =
        some (w.store e (String.utf8ByteSize value), data') := by
      rw [commitStr, hcopy]
      rfl
    refine ⟨_, commitPrefixed_eq (fun data => commitStr w e data value) hcommit, ?_⟩
    have htake := take_source hdata
    rw [length_utf8] at htake
    rw [decode, Input.bytes_put, Input.bytes_put, Cell.get_put, get_data_released]
    have hlen : data'.toList.length = n := data'.length_eq
    apply proveStr_store
    · rw [hlen]
      exact input.le_usizeMax (dataPlace w (byteData n)).toCell
    · rw [hlen]
      exact h.1
    · exact h.2
    · exact htake
  | cStr n =>
    obtain ⟨data', hcopy, hdata⟩ := copyFromSlice_eq_some input.bytes h
    refine ⟨_, commitWhole_eq (fun data => commitCStr data value) hcopy, ?_⟩
    rw [decode, Input.bytes_put, Place.put_whole, proveCStr, hdata]
    exact Terminated.untilNul_withNul _ _
  | u16Str w e n =>
    have hsize : (nativeBytes value).length ≤ n * 2 := by
      rw [length_nativeBytes]
      exact Nat.mul_le_mul_right 2 h.1
    obtain ⟨data', hcopy, hdata⟩ :=
      copyFromSlice_eq_some ((dataPlace w (unitData n)).get input.bytes) hsize
    have hcommit : commitU16Str w e ((dataPlace w (unitData n)).get input.bytes) value =
        some (w.store e (List.length value), data') := by
      rw [commitU16Str, hcopy]
      rfl
    refine ⟨_, commitPrefixed_eq (fun data => commitU16Str w e data value) hcommit, ?_⟩
    have hlen : (nativeUnits data'.toList).length = n := by
      rw [length_nativeUnits, data'.length_eq]
      exact Nat.mul_div_cancel n two_pos
    have htake : (nativeUnits data'.toList).take (List.length value) = value := by
      rw [hdata, nativeUnits_append, List.take_left]
    rw [decode, Input.bytes_put, Input.bytes_put, Cell.get_put, get_data_released]
    apply proveU16Str_store
    · have hmax := input.le_usizeMax (dataPlace w (unitData n)).toCell
      change n * 2 ≤ usizeMax at hmax
      omega
    · rw [hlen]
      exact h.1
    · exact h.2
    · exact htake
  | u16CStr n =>
    have hsize : (nativeBytes (Terminated.withNul value)).length ≤ n * 2 := by
      rw [length_nativeBytes]
      exact Nat.mul_le_mul_right 2 h
    obtain ⟨data', hcopy, hdata⟩ := copyFromSlice_eq_some input.bytes hsize
    refine ⟨_, commitWhole_eq (fun data => commitU16CStr data value) hcopy, ?_⟩
    rw [decode, Input.bytes_put, Place.put_whole, proveU16CStr, hdata, nativeUnits_append]
    exact Terminated.untilNul_withNul _ _

private theorem raw_lt {w : WireInt} {data : Layout} {e : WireEndian}
    (b : Bytes (Layout.record (members w data)).size) :
    WireInt.raw e ((lenPlace w data).get b).toList < 256 ^ w.bytes := by
  have h := Endian.decode_lt e.order ((lenPlace w data).get b).toList
  rwa [((lenPlace w data).get b).length_eq] at h

/-- Every value that some wire represents could have been written to it. -/
theorem fits_of_decode {b : Bytes s.wire.size} {value : s.Value} (h : s.decode b = .ok value) :
    s.Fits value := by
  cases s with
  | str w e n =>
    obtain ⟨hn, hcap, -⟩ := activeLength_eq_ok.mp (proveStr_eq_ok.mp h).1
    rw [Bytes.length_eq] at hcap
    exact ⟨hcap, hn ▸ raw_lt b⟩
  | cStr n =>
    have hlen := Terminated.length_le_of_untilNul h
    rwa [b.length_eq] at hlen
  | u16Str w e n =>
    obtain ⟨hn, hcap, -⟩ := activeLength_eq_ok.mp (proveU16Str_eq_ok.mp h).1
    rw [length_nativeUnits, Bytes.length_eq] at hcap
    refine ⟨hcap.trans ?_, hn ▸ raw_lt b⟩
    exact (Nat.mul_div_cancel n two_pos).le
  | u16CStr n =>
    have hlen := Terminated.length_le_of_untilNul h
    rw [length_nativeUnits, b.length_eq] at hlen
    exact hlen.trans (Nat.mul_div_cancel n two_pos).le

/-- Decoding succeeds on exactly the valid wires. -/
theorem valid_iff (input : Input s.wire) :
    s.Valid input.bytes ↔ ∃ value, s.decode input.bytes = .ok value := by
  cases s with
  | str w e n =>
    have hmax : n ≤ usizeMax := input.le_usizeMax (dataPlace w (byteData n)).toCell
    constructor
    · rintro ⟨hlen, hutf⟩
      have hact : activeLength e ((lenPlace w (byteData n)).get input.bytes).toList
          ((dataPlace w (byteData n)).get input.bytes).toList.length = .ok _ :=
        activeLength_eq_ok.mpr ⟨rfl, by rwa [Bytes.length_eq], hlen.trans hmax⟩
      refine ⟨String.fromUTF8 _ hutf, ?_⟩
      rw [decode, proveStr, hact]
      have hval : String.fromUTF8? _ = some (String.fromUTF8 _ hutf) := dif_pos hutf
      simp only [bind, Except.bind, hval]
    · rintro ⟨value, h⟩
      obtain ⟨hact, htake⟩ := proveStr_eq_ok.mp h
      obtain ⟨hn, hcap, -⟩ := activeLength_eq_ok.mp hact
      rw [Bytes.length_eq] at hcap
      refine ⟨hn ▸ hcap, ?_⟩
      rw [hn, htake, Array.toArray_toList]
      exact String.isValidUTF8 value
  | cStr n => exact Terminated.isOk_untilNul.symm
  | u16Str w e n =>
    have hmax : n ≤ usizeMax := by
      have h := input.le_usizeMax (dataPlace w (unitData n)).toCell
      change n * 2 ≤ usizeMax at h
      omega
    have hlen : (nativeUnits ((dataPlace w (unitData n)).get input.bytes).toList).length = n := by
      rw [length_nativeUnits, Bytes.length_eq]
      exact Nat.mul_div_cancel n two_pos
    constructor
    · intro h
      have hact : activeLength e ((lenPlace w (unitData n)).get input.bytes).toList
          (nativeUnits ((dataPlace w (unitData n)).get input.bytes).toList).length = .ok _ :=
        activeLength_eq_ok.mpr ⟨rfl, by rwa [hlen], le_trans h hmax⟩
      rw [decode, proveU16Str, hact]
      exact ⟨_, rfl⟩
    · rintro ⟨value, h⟩
      obtain ⟨hn, hcap, -⟩ := activeLength_eq_ok.mp (proveU16Str_eq_ok.mp h).1
      rw [hlen, ← hn] at hcap
      exact hcap
  | u16CStr n => exact Terminated.isOk_untilNul.symm

/-- An all-zero string is the empty string. -/
theorem valid_zero (h : s.Accepted) : s.Valid (Bytes.zero s.wire.size) := by
  cases s with
  | str w e n =>
    simp only [Valid, Cell.get_zero, WireInt.raw_zero, List.take_zero]
    exact ⟨Nat.zero_le n, ByteArray.isValidUTF8_empty⟩
  | cStr n => exact List.mem_replicate.mpr ⟨h, rfl⟩
  | u16Str w e n =>
    simp only [Valid, Cell.get_zero, WireInt.raw_zero]
    exact Nat.zero_le n
  | u16CStr n =>
    change 0 ∈ nativeUnits (List.replicate (n * 2) 0)
    rw [nativeUnits_replicate_zero]
    exact List.mem_replicate.mpr ⟨h, rfl⟩

end

end StringIr

end ZeroSchema
