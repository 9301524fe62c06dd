import ZeroSchema.Schema.Proof

/-! The invalid leaves of a wire in the order of the declaration, named by their structured
paths, and the proof walk that reports the first of them. -/
namespace ZeroSchema
open Storage Control

/-- An invalid leaf: where it is and what is wrong with it. -/
structure Fault where
  path : List ErrorPathSegment
  kind : ErrorKind
deriving DecidableEq

def Fault.under (segment : ErrorPathSegment) (f : Fault) : Fault := ⟨segment :: f.path, f.kind⟩

variable [Target]

/-- What is wrong with a string, if anything. -/
def StringIr.faultKind (s : StringIr) (b : Bytes s.wire.size) : Option ErrorKind :=
  match s, b with
  | str w e n, b =>
    let length := WireInt.raw e ((lenPlace w (byteData n)).get b).toList
    if n < length then some .lengthOutOfBounds
    else if ByteArray.IsValidUTF8
      ⟨(((dataPlace w (byteData n)).get b).toList.take length).toArray⟩ then none
    else some .invalidUtf8
  | cStr _, b => if 0 ∈ b.toList then none else some .missingNul
  | u16Str w e n, b =>
    if n < WireInt.raw e ((lenPlace w (unitData n)).get b).toList then some .lengthOutOfBounds
    else none
  | u16CStr _, b => if 0 ∈ nativeUnits b.toList then none else some .missingNul

namespace Category

section Record
variable (ir : StructIr) (fields : Fin ir.arity → Category)
  (faults : (i : Fin ir.arity) → ℕ → Bytes (fields i).wire.size → List Fault)
  (b : Bytes (struct ir fields).wire.size)

/-- A payload whose tag is undeclared has no leaves: the tag is the fault. -/
def fieldFaults (i : Fin ir.arity) : List Fault :=
  match ir.tagField i with
  | none => (faults i 0 ((fieldPlace ir fields i).get b)).map (.under (.field (ir.fieldName i)))
  | some t =>
    match (fields t).loadTag ((fieldPlace ir fields t).get b) with
    | none => (faults t 0 ((fieldPlace ir fields t).get b)).map (.under (.field (ir.fieldName t)))
    | some tag =>
      (faults i tag ((fieldPlace ir fields i).get b)).map (.under (.field (ir.fieldName i)))

end Record

/-- The invalid leaves: fields in declaration order and a tag before its payload, elements
by increasing index, depth first. -/
def faults : (c : Category) → ℕ → Bytes c.wire.size → List Fault
  | primitive _ _, _, _ | fixedBytes _, _, _ | unit, _, _ => []
  | bool, _, b => if BoolWire.raw b = 0 ∨ BoolWire.raw b = 1 then [] else [⟨[], .invalidBool⟩]
  | string s, _, b => (s.faultKind b).toList.map fun kind => ⟨[], kind⟩
  | scalarEnum ir, _, b | tagSibling ir, _, b =>
    if WireInt.raw ir.endian b.toList ∈ ir.discriminants then [] else [⟨[], .unknownEnumValue⟩]
  | struct ir fields, _, b =>
    (List.finRange ir.arity).flatMap (fieldFaults ir fields (fun i => faults (fields i)) b)
  | tagged ir payload, tag, b =>
    match ir.select tag with
    | none => [⟨[], .unknownUnionTag⟩]
    | some k =>
      (faults (payload k) 0 ((payloadPlace ir payload k).get b)).map
        (.under (.variant (ir.variantName k)))
  | array element n, _, b =>
    (List.finRange n).flatMap fun j =>
      (faults element 0 ((elementPlace element j).get b)).map (.under (.index j))
  | optional align inner, _, b =>
    if b.IsZero then [] else faults inner 0 ((presentPlace align inner).get b)

end Category

omit [Target] in
/-- A fault below the segments of a context. -/
def Context.report (ctx : Context) (f : Fault) : SchemaError :=
  .leaf ctx.schema (ctx.path ++ f.path) f.kind

/-- The flat position is exact, and stays exact down to the last byte. -/
structure Context.Exact (ctx : Context) (size : ℕ) : Prop where
  start : ctx.dims = [] → ctx.flat = 0
  bound : (ctx.flat + 1) * size ≤ usizeMax

namespace Context
variable {ctx : Context} {n size : ℕ}

theorem Exact.ofField {W : Layout} (input : Input W) (schema field : String) :
    (Context.ofField schema field).Exact W.size where
  start _ := rfl
  bound := by
    have h := input.fits.trans isizeMax_le_usizeMax
    rwa [← Nat.one_mul W.size] at h

theorem Exact.mono {size' : ℕ} (h : ctx.Exact size) (hle : size' ≤ size) : ctx.Exact size' :=
  ⟨h.start, (Nat.mul_le_mul_left _ hle).trans h.bound⟩

/-- One step into a row never saturates. -/
theorem flat_element {j : ℕ} (hj : j < n) (hsize : 0 < size)
    (h : (ctx.flat + 1) * (n * size) ≤ usizeMax) :
    (ctx.element n j).flat = ctx.flat * n + j ∧ (ctx.flat * n + j + 1) * size ≤ usizeMax := by
  have hrow : ctx.flat * n + j + 1 ≤ (ctx.flat + 1) * n := by
    rw [Nat.add_mul, Nat.one_mul]
    omega
  have hbound : (ctx.flat * n + j + 1) * size ≤ usizeMax :=
    (Nat.mul_le_mul_right size hrow).trans (by rwa [Nat.mul_assoc])
  have hflat : ctx.flat * n + j + 1 ≤ (ctx.flat * n + j + 1) * size := Nat.le_mul_of_pos_right _ hsize
  refine ⟨?_, hbound⟩
  change min usizeMax (min usizeMax (ctx.flat * n) + j) = _
  omega

theorem Exact.element (h : ctx.Exact (n * size)) (hsize : 0 < size) {j : ℕ} (hj : j < n) :
    (ctx.element n j).Exact size where
  start hdims := absurd hdims (by simp [Context.element])
  bound := by
    rw [(flat_element hj hsize h.bound).1]
    exact (flat_element hj hsize h.bound).2

/-- The flat position of an element decodes to its row indices. -/
theorem path_element (h : ctx.Exact (n * size)) (hsize : 0 < size) {j : ℕ} (hj : j < n) :
    (ctx.element n j).path = ctx.path ++ [.index j] := by
  have hflat := (flat_element hj hsize h.bound).1
  simp only [path, hflat]
  cases hd : ctx.dims with
  | nil =>
    have hzero := h.start hd
    simp [Context.element, hd, hzero, indexPath, Radix.split]
  | cons dim dims =>
    have hdims : (ctx.element n j).dims = dim :: (dims ++ [n]) := by simp [Context.element, hd]
    simp only [hdims, indexPath, List.reverse_append, List.reverse_singleton,
      List.singleton_append, Radix.split_step hj, List.map_append, List.map_cons, List.map_nil]
    rfl

theorem report_element (h : ctx.Exact (n * size)) (hsize : 0 < size) {j : ℕ} (hj : j < n)
    (f : Fault) : (ctx.element n j).report f = ctx.report (f.under (.index j)) := by
  rw [report, path_element h hsize hj, List.append_assoc]
  rfl

end Context

namespace StringIr

/-- Decoding fails for the reason that the bytes show. -/
theorem faultKind_eq (s : StringIr) (input : Input s.wire) :
    s.faultKind input.bytes =
      match s.decode input.bytes with
      | .ok _ => none
      | .error error => some error.kind := by
  have prefixed (e : WireEndian) (length : List UInt8) (n : ℕ) (hn : n ≤ usizeMax) :
      (∃ m, activeLength e length n = .error (.lengthOutOfBounds m n) ∧
        n < WireInt.raw e length) ∨
      (activeLength e length n = .ok (WireInt.raw e length) ∧ ¬n < WireInt.raw e length) := by
    unfold activeLength WireInt.load
    by_cases h : n < WireInt.raw e length
    · left
      split_ifs with hmax
      · exact ⟨_, if_pos h, h⟩
      · exact ⟨_, rfl, h⟩
    · right
      rw [if_pos (by omega)]
      exact ⟨if_neg h, h⟩
  cases s with
  | str w e n =>
    have hn : n ≤ usizeMax := input.le_usizeMax (dataPlace w (byteData n)).toCell
    simp only [faultKind, decode, proveStr, Bytes.length_eq]
    obtain ⟨m, hact, hlen⟩ | ⟨hact, hlen⟩ :=
      prefixed e ((lenPlace w (byteData n)).get input.bytes).toList n hn
    · rw [if_pos hlen, hact]
      rfl
    · rw [if_neg hlen, hact]
      simp only [bind, Except.bind, String.fromUTF8?]
      split_ifs <;> rfl
  | cStr n =>
    simp only [faultKind, decode, proveCStr, Terminated.untilNul]
    split_ifs <;> rfl
  | u16Str w e n =>
    have hn : n ≤ usizeMax := by
      have h := input.le_usizeMax (dataPlace w (unitData n)).toCell
      change n * 2 ≤ usizeMax at h
      omega
    have hunits : (nativeUnits ((dataPlace w (unitData n)).get input.bytes).toList).length = n := by
      rw [length_nativeUnits, Bytes.length_eq]
      exact Nat.mul_div_cancel n two_pos
    simp only [faultKind, decode, proveU16Str, hunits]
    obtain ⟨m, hact, hlen⟩ | ⟨hact, hlen⟩ :=
      prefixed e ((lenPlace w (unitData n)).get input.bytes).toList n hn
    · rw [if_pos hlen, hact]
      rfl
    · rw [if_neg hlen, hact]
      rfl
  | u16CStr n =>
    simp only [faultKind, decode, proveU16CStr, Terminated.untilNul]
    split_ifs <;> rfl

/-- A failed read names the fault of its string. -/
theorem read_eq_firstErr (s : StringIr) (ctx : Context) (input : Input s.wire) :
    (s.read ctx input >>= fun _ => .ok ()) =
      firstErr ((s.faultKind input.bytes).toList.map ctx.leaf) := by
  rw [read_eq, faultKind_eq]
  cases s.decode input.bytes <;> rfl

end StringIr

namespace Category

/-- How a declaration itself reports a fault; the enclosing schema adds its segments to the
errors of a declaration that has an error type of its own. -/
def errorOf (c : Category) (ctx : Context) (f : Fault) : SchemaError :=
  if c.ownsErrors then .leaf c.logicalName f.path f.kind else ctx.report f

omit [Target] in
theorem wrap_firstErr (c : Category) (ctx : Context) (l : List Fault) :
    c.wrap ctx (firstErr (l.map (c.errorOf ctx))) = firstErr (l.map ctx.report) := by
  unfold wrap errorOf
  split_ifs
  · rw [mapErr_firstErr, List.map_map]
    rfl
  · rfl

section Record
variable {ir : StructIr} {fields : Fin ir.arity → Category} {input : Input (struct ir fields).wire}

omit [Target] in
private theorem errorOf_under (ctx : Context) (i : Fin ir.arity) (l : List Fault) :
    (l.map (.under (.field (ir.fieldName i)))).map ((struct ir fields).errorOf ctx) =
      l.map (ir.context i).report := by
  rw [List.map_map]
  rfl

/-- One step of the proof walk reports the faults of its own field. -/
theorem proofField_eq_firstErr (hlink : ir.Linked fields)
    (hchild : ∀ i (ctx : Context), ctx.Exact (fields i).wire.size → ∀ tag input,
      (fields i).prove ctx tag input =
        firstErr (((fields i).faults tag input.bytes).map ((fields i).errorOf ctx)))
    (ctx : Context) (i : Fin ir.arity) :
    proofField ir fields (fun i => (fields i).prove) input i =
      firstErr ((fieldFaults ir fields (fun i => (fields i).faults) input.bytes i).map
        ((struct ir fields).errorOf ctx)) := by
  have hexact (i : Fin ir.arity) : (ir.context i).Exact (fields i).wire.size :=
    .ofField (input.child (fieldPlace ir fields i)) _ _
  have hfield (i : Fin ir.arity) (tag : ℕ) :
      (fields i).wrap (ir.context i)
          ((fields i).prove (ir.context i) tag (input.child (fieldPlace ir fields i))) =
        firstErr (((fields i).faults tag ((fieldPlace ir fields i).get input.bytes)).map
          (ir.context i).report) := by
    rw [hchild i _ (hexact i), wrap_firstErr]
    rfl
  simp only [proofField, fieldFaults]
  cases ht : ir.tagField i with
  | none =>
    simp only [selectField_eq, Context.onLayout_ok, Outcome.ok_bind, hfield, errorOf_under]
  | some t =>
    obtain ⟨tir, payload, -, htag⟩ := hlink.ends ht
    have hsel : (fields i).onLayout (selectField ir fields input i) =
        .ok (input.child (fieldPlace ir fields i)) := by
      rw [selectField_eq]
      rfl
    simp only [provedTag, selectField_eq t, Context.onLayout_ok, Outcome.ok_bind, hfield, hsel]
    cases hload : (fields t).loadTag ((fieldPlace ir fields t).get input.bytes) with
    | none =>
      -- a tag that cannot be read is a fault of its own, so the walk stops there
      have hfault : (fields t).faults 0 ((fieldPlace ir fields t).get input.bytes) ≠ [] := by
        intro hnil
        have hok := hchild t _ (hexact t) 0 (input.child (fieldPlace ir fields t))
        rw [Input.bytes_child, hnil] at hok
        obtain ⟨v, hv⟩ := exists_loadTag (e := tir.tagType) (by rw [htag]; rfl)
          ((prove_eq_ok _ _ _ _).mp hok)
        cases hload.symm.trans hv
      obtain ⟨f, l, hl⟩ := List.exists_cons_of_ne_nil hfault
      simp only [errorOf_under, hl, List.map_cons]
      rfl
    | some tag =>
      have hnil : (fields t).faults 0 ((fieldPlace ir fields t).get input.bytes) = [] := by
        have hok := (prove_eq_ok (fields t) (ir.context t) 0
          (input.child (fieldPlace ir fields t))).mpr (valid_of_loadTag hload)
        rw [hchild t _ (hexact t), firstErr_eq_ok, List.map_eq_nil_iff] at hok
        exact hok
      rw [Input.bytes_child, hload, hnil, errorOf_under]
      rfl

end Record

private theorem errorOf_variant {c : Category} (h : c.isPayload = true) {ir : TaggedIr}
    {payload : Fin ir.arity → Category} (name : String) (ctx ctx' : Context) {tag : ℕ}
    {b : Bytes c.wire.size} :
    ((c.faults tag b).map (c.errorOf ctx)).map (.below ir.logicalName [.variant name]) =
      ((c.faults tag b).map (.under (.variant name))).map ((tagged ir payload).errorOf ctx') := by
  rw [List.map_map, List.map_map]
  cases c with
  | unit => rfl
  | scalarEnum e => rfl
  | struct sir fields => rfl
  | _ => cases h

/-- The proof reports the first fault of the declaration, or accepts when there is none. -/
theorem prove_eq_firstErr (c : Category) (h : c.Accepted) {ctx : Context}
    (hctx : ctx.Exact c.wire.size) (tag : ℕ) (input : Input c.wire) :
    c.prove ctx tag input = firstErr ((c.faults tag input.bytes).map (c.errorOf ctx)) := by
  induction c generalizing ctx tag with
  | primitive | fixedBytes | unit => rfl
  | bool =>
    rw [prove, faults]
    split_ifs with hb
    · obtain ⟨v, hv⟩ := Option.isSome_iff_exists.mp (BoolWire.isSome_decode.mpr hb)
      rw [hv]
      rfl
    · rw [BoolWire.decode_eq_none.mpr hb]
      simp [firstErr, errorOf, ownsErrors, Context.report, Context.leaf]
  | string s =>
    rw [prove, s.read_eq_firstErr, faults, List.map_map]
    congr 2
    funext kind
    simp [errorOf, ownsErrors, Context.report, Context.leaf]
  | scalarEnum ir | tagSibling ir =>
    rw [prove, faults]
    split_ifs with he
    · obtain ⟨v, hv⟩ := Option.isSome_iff_exists.mp (EnumIr.isSome_load.mpr he)
      rw [hv]
      rfl
    · rw [Option.not_isSome_iff_eq_none.mp (EnumIr.isSome_load.not.mpr he)]
      rfl
  | struct ir fields ih =>
    rw [prove, faults, List.map_flatMap]
    exact forEach_eq_firstErr fun i => proofField_eq_firstErr h.2.1
      (fun i ctx hctx tag input => ih i (h.1 i).1 hctx tag input) ctx i
  | tagged ir payload ih =>
    rw [prove, faults]
    cases ir.select tag with
    | none => rfl
    | some k =>
      have hsel := (tagged ir payload).onLayout_subrange input (payloadPlace ir payload k)
      change (tagged ir payload).onLayout (input.subrange (payload k).wire 0) = _ at hsel
      have hroot : Context.root.Exact (payload k).wire.size :=
        .ofField (input.child (payloadPlace ir payload k)) "" ""
      simp only [hsel, Outcome.ok_bind, ih k (h.1 k).1 hroot, mapErr_firstErr]
      exact congrArg firstErr (errorOf_variant (h.1 k).2 _ .root ctx)
  | array element n ih =>
    have hsize := wire_size_pos element h.1
    rw [prove, faults, List.map_flatMap]
    refine forEach_eq_firstErr fun j => ?_
    rw [selectElement_eq, Context.onLayout_ok, Outcome.ok_bind, ih h.1 (hctx.element hsize j.isLt),
      wrap_firstErr, List.map_map]
    congr 2
    exact funext fun f => Context.report_element hctx hsize j.isLt f
  | optional align inner ih =>
    have hle : inner.wire.size ≤ (optional align inner).wire.size :=
      (Nat.le_add_left _ _).trans (presentPlace align inner).bound
    rw [prove, faults]
    by_cases hz : input.bytes.IsZero
    · rw [if_pos (Input.isAllZero_eq_true.mpr hz), if_pos hz]
      rfl
    · rw [if_neg (mt Input.isAllZero_eq_true.mp hz), if_neg hz, Context.onLayout_subrange,
        Outcome.ok_bind, ih h.1 (hctx.mono hle), wrap_firstErr]
      rfl

/-- The bytes without a fault are the valid ones. -/
theorem faults_eq_nil (c : Category) (h : c.Accepted) (tag : ℕ) (input : Input c.wire) :
    c.faults tag input.bytes = [] ↔ c.Valid tag input.bytes := by
  have hroot : Context.root.Exact c.wire.size := .ofField input "" ""
  rw [← prove_eq_ok c .root tag input, prove_eq_firstErr c h hroot, firstErr_eq_ok,
    List.map_eq_nil_iff]

end Category

end ZeroSchema
