import ZeroSchema.Access.Prefix

/-! Receiving storage for a root: where its bytes lie, and what a producer and the programs over
its handles can expect of each other in the course of its life. -/
namespace ZeroSchema
open Storage Control Category

/-- `[W; 0]`, which is there for its alignment, and the bytes behind it. -/
def bufferFields (W : Layout) (n : ℕ) : Fin 2 → Layout
  | 0 => W.array 0
  | 1 => Layout.bytes n

abbrev bytesField : Fin 2 := ⟨1, Nat.one_lt_two⟩

def bufferLayout (W : Layout) (n : ℕ) : Layout := Layout.record (bufferFields W n)

/-- A buffer where the compiler or the allocator has placed it. -/
structure SchemaBuffer [Target] (W : Layout) (n : ℕ) where
  address : ℕ
  bytes : Bytes n
  aligned : (bufferLayout W n).align ∣ address
  fits : n ≤ isizeMax

section
variable {W : Layout} {n : ℕ}

theorem roundUp_zero (L : Layout) : roundUp 0 L.align = 0 :=
  Nat.le_zero.mp (roundUp_le L.align_pos (Nat.dvd_zero _) le_rfl)

/-- The bytes are at the start of the buffer. -/
theorem bufferFields_offset : Layout.fieldOffset (bufferFields W n) bytesField = 0 := by
  have hfirst : Layout.fieldOffset (bufferFields W n) 0 = 0 := roundUp_zero _
  have hempty : (bufferFields W n 0).size = 0 := Nat.zero_mul W.size
  have hend : Layout.endOf (bufferFields W n) 1 = 0 := by
    have hsucc := @Layout.endOf_succ 2 (bufferFields W n) 0
    rw [hfirst, hempty] at hsucc
    exact hsucc
  show roundUp (Layout.endOf (bufferFields W n) 1) _ = 0
  rw [hend]
  exact roundUp_zero _

theorem bufferLayout_align : (bufferLayout W n).align = W.align := by
  have hlog : (bufferLayout W n).logAlign = W.logAlign := by
    show max (max 0 W.logAlign) 0 = W.logAlign
    omega
  unfold Layout.align
  rw [hlog]

/-- A buffer for the exact size of a root has no other bytes than the root's. -/
theorem bufferLayout_size : (bufferLayout W W.size).size = W.size := by
  have hlast : Layout.endOf (bufferFields W W.size) 2 = W.size := by
    have hsucc := @Layout.endOf_succ 2 (bufferFields W W.size) bytesField
    rw [bufferFields_offset, Nat.zero_add] at hsucc
    exact hsucc
  have hlog : (bufferLayout W W.size).align = W.align := bufferLayout_align
  have hsize : (bufferLayout W W.size).size =
      roundUp (Layout.endOf (bufferFields W W.size) 2) (bufferLayout W W.size).align := rfl
  rw [hsize, hlast, hlog]
  exact le_antisymm (roundUp_le W.align_pos W.align_dvd_size le_rfl)
    (le_roundUp _ W.align_pos)

end

namespace SchemaBuffer
variable [Target] {W : Layout} {n : ℕ} (b : SchemaBuffer W n)

/-- Initialized storage, inline or on the heap. -/
def new (address : ℕ) (aligned : (bufferLayout W n).align ∣ address) (fits : n ≤ isizeMax) :
    SchemaBuffer W n where
  address := address
  bytes := Bytes.zero n
  aligned := aligned
  fits := fits

def asBytes : Slice n where
  address := b.address + Layout.fieldOffset (bufferFields W n) bytesField
  bytes := b.bytes
  fits := b.fits

/-- What a writer through `as_bytes_mut` leaves. -/
def write (bytes : Bytes n) : SchemaBuffer W n := { b with bytes := bytes }

theorem asBytes_aligned : W.align ∣ b.asBytes.address := by
  show W.align ∣ b.address + Layout.fieldOffset (bufferFields W n) bytesField
  rw [bufferFields_offset, Nat.add_zero, ← @bufferLayout_align W n]
  exact b.aligned

end SchemaBuffer

namespace Schema

section
variable [Target] (S : Schema)

abbrev Buffer : Type := SchemaBuffer S.wire S.wire.size

/-- What happens to a buffer: its producer fills it, or it is accessed and a program runs over the
handle. -/
inductive BufferStep (S : Schema)
  | fill (bytes : Bytes S.wire.size)
  | access
  | session (m : Mutation S.category)

/-- The answer of the constructor, if the step has one. -/
abbrev Answer : Type := Option (Except SchemaError Unit)

variable {S}

def BufferStep.run (b : S.Buffer) : BufferStep S → Option (Answer × S.Buffer)
  | fill bytes => some (none, b.write bytes)
  | access =>
    match S.access b.asBytes with
    | .ok _ => some (some (.ok ()), b)
    | .err e => some (some (.error e), b)
    | .unreachable => none
  | session m => do
    let (result, after) ← S.sessionMut b.asBytes m
    some (some (result.map fun _ => ()), b.write after.bytes)

def runBuffer (b : S.Buffer) : List (BufferStep S) → Option (List Answer × S.Buffer)
  | [] => some ([], b)
  | step :: steps => do
    let (answer, b) ← step.run b
    let (answers, b) ← runBuffer b steps
    some (answer :: answers, b)

/-! ### Without the storage -/

variable (S)

/-- What an access says about bytes. -/
def verdict (bytes : Bytes S.wire.size) : Except SchemaError Unit :=
  match (S.category.faults 0 bytes).head? with
  | none => .ok ()
  | some f => .error (.leaf S.name f.path f.kind)

/-- Every access answers for the bytes that the producer has filled in last. -/
def answers (filled : Bytes S.wire.size) : List (BufferStep S) → List Answer
  | [] => []
  | .fill bytes :: steps => none :: answers bytes steps
  | .access :: steps | .session _ :: steps => some (S.verdict filled) :: answers filled steps

def filledBy (filled : Bytes S.wire.size) : List (BufferStep S) → Bytes S.wire.size
  | [] => filled
  | .fill bytes :: steps => filledBy bytes steps
  | .access :: steps | .session _ :: steps => filledBy filled steps

variable {S}

theorem verdict_eq_ok {b : S.Buffer} :
    S.verdict b.bytes = .ok () ↔ S.category.Valid 0 b.bytes := by
  have hnil := @faults_eq_nil _ S b.asBytes b.asBytes_aligned
  change S.category.faults 0 b.bytes = [] ↔ S.category.Valid 0 b.bytes at hnil
  rw [← hnil]
  unfold verdict
  cases S.category.faults 0 b.bytes <;> simp

/-- Access to a buffer is decided by its bytes alone, never by where it lies. -/
theorem access_buffer (b : S.Buffer) :
    match S.verdict b.bytes with
    | .ok () => ∃ input, S.access b.asBytes = .ok input ∧ input.bytes = b.bytes
    | .error e => S.access b.asBytes = .err e := by
  obtain ⟨input, hbytes, haccess⟩ := @access_eq _ S b.asBytes b.asBytes_aligned
  change S.access b.asBytes = (firstErr ((S.category.faults 0 b.bytes).map _) >>= _) at haccess
  unfold verdict
  cases hfaults : S.category.faults 0 b.bytes with
  | nil =>
    rw [hfaults] at haccess
    exact ⟨input, haccess, hbytes⟩
  | cons f rest =>
    rw [hfaults] at haccess
    exact haccess

/-- What a producer and programs share of a buffer: valid bytes when the filled ones are, and the
filled ones themselves when they are not. -/
def Agrees (filled : Bytes S.wire.size) (b : S.Buffer) : Prop :=
  S.verdict b.bytes = S.verdict filled ∧ (S.verdict filled ≠ .ok () → b.bytes = filled)

theorem agrees_refl (b : S.Buffer) : Agrees b.bytes b := ⟨rfl, fun _ => rfl⟩

/-- A session over valid bytes leaves valid bytes, and one over invalid bytes is refused. -/
theorem session_agrees (hd : S.category.DistinctTags) (m : Mutation S.category)
    (b : S.Buffer) : ∃ result after, S.sessionMut b.asBytes m = some (result, after) ∧
      result.map (fun _ => ()) = S.verdict b.bytes ∧ Agrees b.bytes (b.write after.bytes) := by
  have haccess := access_buffer b
  unfold sessionMut
  cases hverdict : S.verdict b.bytes with
  | error e =>
    rw [hverdict] at haccess
    have haccessMut : S.accessMut b.asBytes = .err e := haccess
    rw [haccessMut]
    exact ⟨.error e, b.asBytes, rfl, rfl, agrees_refl b⟩
  | ok u =>
    rw [hverdict] at haccess
    obtain ⟨input, haccess, hbytes⟩ := haccess
    have haccessMut : S.accessMut b.asBytes = .ok input := haccess
    rw [haccessMut]
    have hvalid := valid_of_accessMut haccessMut
    obtain ⟨trace, hrun, hall⟩ := m.run_valid S.accepted hd .root (fun _ => rfl) hvalid
    have hfinal : S.category.Valid 0 (Trace.final input trace).bytes :=
      Trace.final_of_forall (P := fun t : Input S.wire => S.category.Valid 0 t.bytes) hvalid hall
    have hput : (b.asBytes.write le_rfl (Trace.final input trace).bytes).bytes =
        (Trace.final input trace).bytes := Place.put_whole b.bytes (Trace.final input trace).bytes
    have hafter : S.verdict (b.write (Trace.final input trace).bytes).bytes = .ok () :=
      verdict_eq_ok.mpr hfinal
    refine ⟨.ok (trace.map Prod.fst), b.asBytes.write le_rfl (Trace.final input trace).bytes,
      ?_, rfl, ?_⟩
    · dsimp only
      rw [hrun]
      rfl
    · rw [hput]
      refine ⟨hafter.trans hverdict.symm, ?_⟩
      intro hbad
      exact absurd hverdict hbad

/-- One step answers as it should and leaves what is agreed. -/
theorem step_agrees (hd : S.category.DistinctTags) {filled : Bytes S.wire.size} {b : S.Buffer}
    (h : Agrees filled b) (step : BufferStep S) :
    ∃ answer after, step.run b = some (answer, after) ∧
      S.answers filled [step] = [answer] ∧ Agrees (S.filledBy filled [step]) after := by
  cases step with
  | fill bytes => exact ⟨none, b.write bytes, rfl, rfl, agrees_refl (b.write bytes)⟩
  | access =>
    have haccess := access_buffer b
    rw [h.1] at haccess
    refine ⟨some (S.verdict filled), b, ?_, rfl, h⟩
    unfold BufferStep.run
    cases hverdict : S.verdict filled with
    | ok u =>
      rw [hverdict] at haccess
      obtain ⟨input, haccess, -⟩ := haccess
      dsimp only
      rw [haccess]
    | error e =>
      rw [hverdict] at haccess
      dsimp only
      rw [haccess]
  | session m =>
    obtain ⟨result, after, hsession, hresult, hafter⟩ := session_agrees hd m b
    refine ⟨some (result.map fun _ => ()), b.write after.bytes, ?_, ?_, ?_⟩
    · unfold BufferStep.run
      dsimp only
      rw [hsession]
      rfl
    · rw [hresult, h.1]
      rfl
    · refine ⟨hafter.1.trans h.1, ?_⟩
      intro hbad
      have hbytes : b.bytes = filled := h.2 hbad
      have hsame := hafter.2 (h.1.trans_ne hbad)
      exact hsame.trans hbytes

/-- The whole life, by its steps. -/
theorem runBuffer_agrees (hd : S.category.DistinctTags) (steps : List (BufferStep S))
    {filled : Bytes S.wire.size} {b : S.Buffer} (h : Agrees filled b) :
    ∃ after, runBuffer b steps = some (S.answers filled steps, after) ∧
      Agrees (S.filledBy filled steps) after := by
  induction steps generalizing filled b with
  | nil => exact ⟨b, rfl, h⟩
  | cons step steps ih =>
    obtain ⟨answer, next, hrun, hanswer, hnext⟩ := step_agrees hd h step
    obtain ⟨after, hafter, hagrees⟩ := ih hnext
    refine ⟨after, ?_, ?_⟩
    · unfold runBuffer
      rw [hrun]
      change (runBuffer next steps >>= _) = _
      rw [hafter]
      cases step <;> cases hanswer <;> rfl
    · cases step <;> exact hagrees

/-- Storage that starts as a valid root. A root whose zeroes are not valid does not compile. -/
def makeZeroed (S : Schema) (address : ℕ)
    (aligned : (bufferLayout S.wire S.wire.size).align ∣ address)
    (fits : S.wire.size ≤ isizeMax) : Option S.Buffer :=
  if S.category.zeroIsValid then some (.new address aligned fits) else none

theorem makeZeroed_isSome (hd : S.category.DistinctTags) {address : ℕ}
    (aligned : (bufferLayout S.wire S.wire.size).align ∣ address)
    (fits : S.wire.size ≤ isizeMax) :
    (S.makeZeroed address aligned fits).isSome = true ↔
      S.verdict (Bytes.zero S.wire.size) = .ok () := by
  have hverdict := @verdict_eq_ok _ S (.new address aligned fits)
  change S.verdict (Bytes.zero S.wire.size) = .ok () ↔
    S.category.Valid 0 (Bytes.zero S.wire.size) at hverdict
  have hzero : S.category.zeroIsValid = true ↔ S.category.Valid 0 (Bytes.zero S.wire.size) := by
    constructor
    · intro h
      exact valid_zero _ S.accepted S.zeroTag h (Or.inl hd)
    · exact zeroIsValid_of_valid_zero _ S.accepted S.zeroTag
  rw [hverdict, ← hzero]
  unfold makeZeroed
  split_ifs with h <;> simp [h]

end

section
attribute [local instance] Target.lp64

theorem envelopeBuffer_aligned :
    (bufferLayout envelope.wire envelope.wire.size).align ∣ 64 := by
  decide

theorem envelopeBuffer_fits : envelope.wire.size ≤ isizeMax := by
  decide

def envelopeBuffer : envelope.Buffer := .new 64 envelopeBuffer_aligned envelopeBuffer_fits

/-- The producer writes a kind that is not declared. -/
def envelopeLife : List (BufferStep envelope) :=
  [.session .skip, .fill unknownKind.bytes, .access]

end

end Schema

end ZeroSchema
