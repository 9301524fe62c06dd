import ZeroSchema.Mutation.Frame
import ZeroSchema.Mutation.Twin
import ZeroSchema.Mutation.Value

/-! The handles refine their purpose: on storage that holds a value, a program does to the bytes
what it does to the value. -/
namespace ZeroSchema
open Storage Control Input
variable [Target]

namespace StringIr
variable {s : StringIr}

omit [Target] in
theorem untilNul_replicate {α : Type} [OfNat α 0] [DecidableEq α] {n : ℕ} {v : Terminated α}
    (h : Terminated.untilNul (List.replicate n (0 : α)) = .ok v) : v.units = [] := by
  unfold Terminated.untilNul at h
  split_ifs at h
  rw [← Except.ok.inj h]
  cases n <;> simp [List.replicate_succ]

/-- Zeros hold the empty string. -/
theorem cleared_of_decode {v : s.Value} (h : s.decode (Bytes.zero _) = .ok v) : v = s.cleared := by
  cases s with
  | str w e n =>
    have hlength := (activeLength_eq_ok.mp (proveStr_eq_ok.mp h).1).1
    rw [Cell.get_zero, WireInt.raw_zero] at hlength
    exact String.utf8ByteSize_eq_zero_iff.mp hlength.symm
  | cStr n => exact Terminated.ext (untilNul_replicate h)
  | u16Str w e n =>
    have hlength := (activeLength_eq_ok.mp (proveU16Str_eq_ok.mp h).1).1
    rw [Cell.get_zero, WireInt.raw_zero] at hlength
    exact List.length_eq_zero_iff.mp hlength.symm
  | u16CStr n =>
    have hunits : nativeUnits (Bytes.zero (n * 2)).toList = List.replicate n 0 :=
      nativeUnits_replicate_zero n
    have hproof : Terminated.untilNul (nativeUnits (Bytes.zero (n * 2)).toList) = .ok v := h
    rw [hunits] at hproof
    exact Terminated.ext (untilNul_replicate hproof)

end StringIr

namespace Category

theorem loadTag_zero (c : Category) : c.loadTag (Bytes.zero _) = c.zeroTagOf := by
  cases c with
  | tagSibling ir =>
    show ((ir.load (Bytes.zero _)).map Fin.val) = (ir.fromRaw 0).map Fin.val
    rw [EnumIr.load, WireInt.raw_zero]
  | _ => rfl

/-- Zeros hold the value that they stand for, and no other. -/
theorem zeroValue_eq (c : Category) (h : c.Accepted) {tag : ℕ} {v : c.Logical}
    (hv : c.Represents tag (Bytes.zero _) v) : c.zeroValue tag = some v := by
  induction c generalizing tag with
  | primitive p e =>
    have hzero : p.get e (Bytes.zero _) = 0 := by
      unfold Primitive.get
      show BitVec.ofNat _ (e.order.decode (List.replicate _ 0)) = 0
      rw [Endian.decode_replicate_zero]
      rfl
    exact congrArg some (hzero.symm.trans hv)
  | bool => exact hv
  | string s => exact congrArg some (StringIr.cleared_of_decode hv).symm
  | fixedBytes n => exact congrArg some hv
  | scalarEnum ir | tagSibling ir =>
    have hload : ir.load (Bytes.zero _) = some v := hv
    rw [EnumIr.load, WireInt.raw_zero] at hload
    exact hload
  | struct ir fields ih =>
    refine collect_eq_some.mpr fun i => ?_
    obtain ⟨tag, htag, hfield⟩ := hv i
    rw [Cell.get_zero] at hfield
    have hsibling : ir.siblingTag (fun t => (fields t).zeroTagOf) i = some tag := by
      unfold tagAt at htag
      simp only [Cell.get_zero, loadTag_zero] at htag
      exact htag
    rw [hsibling]
    exact ih i (h.1 i).1 hfield
  | tagged ir payload ih =>
    obtain ⟨k, v⟩ := v
    have hpayload : (payload k).Represents 0 ((payloadPlace ir payload k).get (Bytes.zero _)) v := hv.2
    rw [Cell.get_zero] at hpayload
    rw [zeroValue, show ir.select tag = some k from hv.1, Option.bind_some, ih k (h.1 k).1 hpayload]
    rfl
  | unit => rfl
  | array element n ih =>
    have helement (j : Fin n) : element.zeroValue 0 = some (v j) := by
      have hj := hv j
      rw [Cell.get_zero] at hj
      exact ih h.1 hj
    have hfirst := helement ⟨0, Nat.pos_of_ne_zero h.2.2⟩
    rw [zeroValue, hfirst]
    refine congrArg some (funext fun j => ?_)
    exact Option.some.inj (hfirst.symm.trans (helement j))
  | optional align inner ih =>
    cases v with
    | none => rfl
    | some v => exact absurd Bytes.isZero_zero hv.1

/-! ### Calls -/

/-- The calls that write zeros to all of the storage. -/
def Operation.clears {c : Category} : Operation c → Bool
  | .clearString | .clear _ => true
  | _ => false

/-- A call is rejected and has written nothing, or it leaves the value that it has to leave; it
writes no byte that this value does not occupy, unless it clears. -/
def Refines (c : Category) (tag : ℕ) (input : Input c.wire) (clears : Bool) (answer : Answer c.wire)
    (left : Option c.Logical) : Prop :=
  (left = none ∧ ∃ e, answer = some (.error e, input)) ∨
  ∃ w out, left = some w ∧ answer = some (.ok (), out) ∧ c.Represents tag out.bytes w ∧
    if clears then out = input.clearAll else Changes (c.footprint w) input out

theorem assign_refines {c : Category} (hacc : c.Accepted) (hd : c.DistinctTags)
    (hpay : c.payloadEnum = none) (ctx : Context) {input : Input c.wire}
    (hvalid : c.Valid 0 input.bytes) (v : c.Logical) :
    c.Refines 0 input false (twoPass input (c.preflightLogical false ctx 0 input v)
      (c.commitLogical v false)) (if c.Fits v then some v else none) := by
  have hiff : c.preflightLogical false ctx 0 input v = .ok () ↔ c.Fits v :=
    preflightLogical_eq_ok c hacc hd (Or.inr hvalid)
  by_cases hfits : c.Fits v
  · have hready : false = true ∨ c.Valid 0 input.bytes := Or.inr hvalid
    obtain ⟨out, hcommit, hrep, hchanges⟩ :=
      commitLogical_determines c hacc hd hready (fun _ => rfl) hfits
    rw [logicalTag_flag hpay] at hcommit
    rw [logicalTag_eq_zero hpay] at hrep
    exact Or.inr ⟨v, out, if_pos hfits, twoPass_eq_ok.mpr ⟨hiff.mpr hfits, hcommit⟩, hrep,
      hchanges⟩
  · rcases assign_cases hacc hpay ctx input v with he | ⟨out, hok, -⟩
    · exact Or.inl ⟨if_neg hfits, he⟩
    · exact absurd (hiff.mp (twoPass_eq_ok.mp hok).1) hfits

theorem patch_refines {c : Category} (hacc : c.Accepted) (hd : c.DistinctTags) (ctx : Context)
    {tag : ℕ} (hfree : c.payloadEnum = none → tag = 0) {input : Input c.wire} {v : c.Logical}
    (hv : c.Represents tag input.bytes v) (p : c.Patch) (htag : c.patchTag p = tag) :
    c.Refines tag input false (twoPass input (c.preflightPatch false ctx tag input p)
      (c.commitPatch p false)) (c.patched p v) := by
  have hstart : c.Start false tag input.bytes (some v) := ⟨v, rfl, hv⟩
  have hiff : c.preflightPatch false ctx tag input p = .ok () ↔
      c.PatchFits p ∧ c.Suffices (some v) p := preflightPatch_eq_ok c hacc hd hstart
  unfold patched
  by_cases hfits : c.PatchFits p ∧ c.Suffices (some v) p
  · obtain ⟨w, out, hmerge, hcommit, hrep, hchanges⟩ :=
      commitPatch_determines c hacc hd (hstart.base Bool.noConfusion) hfree (hiff.mpr hfits)
    have hflag : (false || decide (tag ≠ c.patchTag p)) = false := by simp [htag]
    rw [hflag] at hcommit
    rw [htag] at hrep
    rw [if_pos hfits]
    exact Or.inr ⟨w, out, hmerge, twoPass_eq_ok.mpr ⟨hiff.mpr hfits, hcommit⟩, hrep,
      hchanges⟩
  · rcases patch_cases hacc ctx hfree input p htag with he | ⟨out, hok, -⟩
    · exact Or.inl ⟨if_neg hfits, he⟩
    · exact absurd (hiff.mp (twoPass_eq_ok.mp hok).1) hfits

theorem string_refines {s : StringIr} (ctx : Context) (input : Input s.wire) (v : s.Value) :
    (string s).Refines 0 input false (StringMut.set s ctx input v) (if s.Fits v then some v else none) := by
  rw [StringMut.set, StringIr.preflight_eq]
  cases hcheck : s.check v with
  | ok u =>
    have hfits := StringIr.check_eq_ok.mp hcheck
    obtain ⟨out, hout, hdecode⟩ := s.commit_spec input hfits
    refine Or.inr ⟨v, out, if_pos hfits, ?_, hdecode, s.commit_changes hout⟩
    simp [twoPass, Context.onMutation, hout]
  | error e =>
    have hfits : ¬s.Fits v := by
      intro hfits
      rw [StringIr.check_eq_ok.mpr hfits] at hcheck
      cases hcheck
    exact Or.inl ⟨if_neg hfits, _, rfl⟩

theorem clear_refines {c : Category} (hacc : c.Accepted) {tag : ℕ} (input : Input c.wire)
    (hvalid : c.Valid tag (Bytes.zero _)) :
    c.Refines tag input true (some (.ok (), input.clearAll)) (c.zeroValue tag) := by
  obtain ⟨v, hv⟩ := (c.valid_iff tag input.clearAll).mp hvalid
  exact Or.inr ⟨v, input.clearAll, zeroValue_eq c hacc hv, rfl, hv, rfl⟩

theorem setElement_refines {element : Category} {n index : ℕ} (hacc : (array element n).Accepted)
    (hd : element.DistinctTags) (ctx : Context) {input : Input (array element n).wire}
    {old : (array element n).Logical} (hold : (array element n).Represents 0 input.bytes old)
    (v : element.Logical) :
    (array element n).Refines 0 input false (ArrayMut.set element n ctx input index v)
      ((Operation.setElement (n := n) index v).apply old) := by
  rw [Operation.apply]
  have hall : (array element n).Valid 0 input.bytes := hold.valid
  by_cases hlt : index < n
  · have hvalid : element.Valid 0 ((elementPlace element ⟨index, hlt⟩).get input.bytes) :=
      hall ⟨index, hlt⟩
    have hiff : element.preflightLogical false (ctx.element n index) 0
        (input.child (elementPlace element ⟨index, hlt⟩)) v = .ok () ↔ element.Fits v :=
      preflightLogical_eq_ok element hacc.1 hd (Or.inr hvalid)
    rw [dif_pos hlt]
    rcases setElement_cases ctx input hlt v hacc with he | ⟨out, hok, hput⟩
    · by_cases hfits : element.Fits v
      · have hpre : element.childFailure (ctx.element n index) .capacityExceeded
            (element.preflightLogical false (ctx.element n index) 0
              (input.child (elementPlace element ⟨index, hlt⟩)) v) = .ok () :=
          childFailure_eq_ok.mpr (hiff.mpr hfits)
        obtain ⟨e, he⟩ := he
        rw [setElement_eq ctx input hlt v, hpre] at he
        obtain ⟨_, -, he⟩ := Option.map_eq_some_iff.mp he
        cases he
      · exact Or.inl ⟨if_neg hfits, he⟩
    · have hfits : element.Fits v := by
        rw [setElement_eq ctx input hlt v] at hok
        exact hiff.mp (childFailure_eq_ok.mp (twoPass_eq_ok.mp hok).1)
      have hperform : (Operation.setElement index v).perform ctx 0 input = some (.ok (), out) := hok
      have hchanges := Operation.perform_changes _ hacc hperform
      have hsubset : (Operation.setElement index v : Operation (array element n)).writes input.bytes ⊆
          (array element n).footprint (Function.update old ⟨index, hlt⟩ v) := by
        intro k hk
        rw [Operation.writes, dif_pos hlt] at hk
        refine Set.mem_iUnion.mpr ⟨⟨index, hlt⟩, ?_⟩
        rw [Function.update_self]
        exact hk
      obtain ⟨new, hnew, rfl⟩ := hput hd hvalid
      refine Or.inr ⟨_, _, if_pos hfits, hok, represents_put_element hold hnew, ?_⟩
      exact hchanges.mono hsubset
  · rw [dif_neg hlt]
    exact Or.inl ⟨rfl, _, if_neg hlt⟩

/-- Every call refines what it does to the value. -/
theorem Operation.perform_refines {c : Category} (op : Operation c) (hacc : c.Accepted)
    (hd : c.DistinctTags) (ctx : Context) {tag : ℕ} (hfree : c.payloadEnum = none → tag = 0)
    {input : Input c.wire} {v : c.Logical} (hv : c.Represents tag input.bytes v) :
    c.Refines tag input op.clears (op.perform ctx tag input) (op.apply v) := by
  cases op with
  | @setScalar p e w =>
    obtain rfl := hfree rfl
    have h := assign_refines hacc hd rfl ctx hv.valid w
    rwa [if_pos (show (primitive p e).Fits w from trivial)] at h
  | setBool w =>
    obtain rfl := hfree rfl
    have h := assign_refines hacc hd rfl ctx hv.valid w
    rwa [if_pos (show bool.Fits w from trivial)] at h
  | @setEnum ir w =>
    obtain rfl := hfree rfl
    have h := assign_refines hacc hd rfl ctx hv.valid w
    rwa [if_pos (show (scalarEnum ir).Fits w from trivial)] at h
  | setOptional w =>
    obtain rfl := hfree rfl
    exact assign_refines hacc hd rfl ctx hv.valid w
  | setString w =>
    obtain rfl := hfree rfl
    exact string_refines ctx input w
  | @clearString s => exact clear_refines hacc input (StringIr.valid_zero hacc)
  | @setBytes n source =>
    rw [apply]
    by_cases hlen : source.length = n
    · rw [dif_pos hlen]
      refine Or.inr ⟨⟨source, hlen⟩, input.overwrite ⟨source, hlen⟩, rfl, ?_, rfl, ?_⟩
      · simp [perform, BytesMut.set, FixedBytes.preflight, twoPass, hlen]
      · exact changes_overwrite _
    · rw [dif_neg hlen]
      refine Or.inl ⟨rfl, ctx.leaf .arrayLengthMismatch, ?_⟩
      simp [perform, BytesMut.set, FixedBytes.preflight, twoPass, hlen]
  | setElement index w =>
    obtain rfl := hfree rfl
    exact setElement_refines hacc hd ctx hv w
  | @copyElements element n values =>
    obtain rfl := hfree rfl
    rw [apply]
    by_cases hlen : values.length = n
    · rw [dif_pos hlen, perform, copyElements_eq hlen]
      exact assign_refines hacc hd rfl ctx hv.valid _
    · rw [dif_neg hlen]
      exact Or.inl ⟨rfl, _, dif_neg hlen⟩
  | copyFrom path p =>
    have hpay : c.payloadEnum = none := payloadEnum_eq_none (Or.inl (isPayload_of_isPath path))
    obtain rfl := hfree hpay
    rw [perform, copyFrom_eq hv.valid, apply]
    exact patch_refines hacc hd ctx hfree hv p (patchTag_eq_zero hpay p)
  | @copyPayload ir payload p =>
    have hselect : ir.select tag = some v.1 := hv.1
    have hstored : (ir.tag v.1 : ℕ) = tag := TaggedIr.tag_of_select hselect
    have hiff : (tagged ir payload).patchTag p = tag ↔ p.1 = v.1 := by
      constructor
      · intro h
        exact hd.1 (Fin.ext (h.trans hstored.symm))
      · intro h
        exact (congrArg (fun k => (ir.tag k : ℕ)) h).trans hstored
    rw [perform, TaggedMut.copyFrom, apply]
    by_cases hsame : p.1 = v.1
    · rw [if_pos hsame, if_neg (not_not_intro (hiff.mpr hsame))]
      exact patch_refines hacc hd .root hfree hv p (hiff.mpr hsame)
    · rw [if_neg hsame, if_pos (mt hiff.mp hsame)]
      exact Or.inl ⟨rfl, _, rfl⟩
  | @clear ir fields gate =>
    obtain rfl := hfree rfl
    exact clear_refines hacc input (valid_zero_of_clearState rfl hacc gate)

end Category

end ZeroSchema
