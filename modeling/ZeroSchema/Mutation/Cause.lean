import ZeroSchema.Mutation.Blame
import ZeroSchema.Mutation.Root

/-! What the error of a rejected call names: its kind is that of the check that failed exactly
where no schema on the way to the call replaced it. -/
namespace ZeroSchema
open Storage Control

section
variable [Target]

/-- A call answers with the error that is to blame and writes nothing, or succeeds when there is
nothing to blame. -/
def Answers {W : Layout} (input : Input W) (answer : Answer W) : Option Blame → Prop
  | none => ∃ out, answer = some (.ok (), out)
  | some b => ∃ e, answer = some (.error e, input) ∧ e.kind = b.kind

theorem twoPass_answers {W : Layout} {input : Input W} {preflight : Outcome SchemaError Unit}
    {commit : Input W → Option (Input W)} {b : Option Blame} (h : Reports preflight b)
    (hrun : twoPass input preflight commit ≠ none) :
    Answers input (twoPass input preflight commit) b := by
  cases b with
  | none =>
    have hok : preflight = .ok () := h
    rw [hok] at hrun ⊢
    cases hcommit : commit input with
    | none => simp [twoPass, hcommit] at hrun
    | some out => exact ⟨out, by simp [twoPass, hcommit]⟩
  | some b =>
    obtain ⟨e, he, hkind⟩ := h
    rw [he]
    exact ⟨e, rfl, hkind⟩

namespace Category

/-- What a rejected call is to blame on. -/
def Operation.blame : {c : Category} → Operation c → ℕ → Bytes c.wire.size → Option Blame
  | string s, setString v, _, _ => (s.misfit v).map .leaf
  | fixedBytes n, setBytes source, _, _ =>
    if source.length = n then none else some (.leaf .arrayLengthMismatch)
  | array element n, setElement index v, _, b =>
    if h : index < n then element.childBlame .capacityExceeded
      (element.logicalBlame false 0 ((elementPlace element ⟨index, h⟩).get b) v)
    else some (.leaf .arrayIndexOutOfBounds)
  | array element n, copyElements values, _, b =>
    if values.length = n then (List.finRange n).findSome? fun j => values[j]?.bind fun v =>
      element.childBlame .capacityExceeded
        (element.logicalBlame false 0 ((elementPlace element j).get b) v)
    else some (.leaf .arrayLengthMismatch)
  | optional align inner, setOptional v, tag, b => (optional align inner).logicalBlame false tag b v
  | c, copyFrom _ p, tag, b => c.patchBlame false tag b p
  | tagged ir payload, copyPayload p, tag, b =>
    if (tagged ir payload).patchTag p ≠ tag then some (.leaf .tagMismatch)
    else (tagged ir payload).patchBlame false tag b p
  | primitive _ _, setScalar _, _, _ | bool, setBool _, _, _ | scalarEnum _, setEnum _, _, _
  | string _, clearString, _, _ | struct _ _, clear _, _, _ => none

/-- The elements are checked in order, each in the storage of its own. -/
theorem reports_elements {element : Category} {n : ℕ} (h : element.Accepted) (ctx : Context)
    (input : Input (array element n).wire) {values : List element.Logical}
    (hlen : values.length = n) :
    Reports ((array element n).preflightLogical false ctx 0 input
        fun j => values.get (j.cast hlen.symm))
      ((List.finRange n).findSome? fun j => values[j]?.bind fun v =>
        element.childBlame .capacityExceeded
          (element.logicalBlame false 0 ((elementPlace element j).get input.bytes) v)) := by
  apply reports_forEach
  intro j
  have hj : values[j]? = some (values.get (j.cast hlen.symm)) := by
    have hlt : (j : ℕ) < values.length := by omega
    simp [List.getElem?_eq_getElem hlt]
  rw [hj, selectElement_eq]
  apply reports_childFailure
  exact preflightLogical_reports element h false _ 0 (input.child (elementPlace element j)) _

/-- Every call on a valid handle answers with what is to blame. -/
theorem Operation.perform_answers {c : Category} (op : Operation c) (h : c.Accepted) (ctx : Context)
    {tag : ℕ} (hfree : c.payloadEnum = none → tag = 0) {input : Input c.wire}
    (hvalid : c.Valid tag input.bytes) :
    Answers input (op.perform ctx tag input) (op.blame tag input.bytes) := by
  have hrun : op.perform ctx tag input ≠ none := by
    rcases op.perform_cases h ctx hfree hvalid with ⟨e, he⟩ | ⟨out, hout, -⟩
    · simp [he]
    · simp [hout]
  cases op with
  | setScalar v | setBool v | setEnum v =>
    rw [perform] at hrun ⊢
    rw [blame]
    exact twoPass_answers (preflightLogical_reports _ h false ctx 0 input v) hrun
  | @setString s v =>
    rw [perform] at hrun ⊢
    rw [blame]
    exact twoPass_answers (reports_string s _ input v) hrun
  | clearString =>
    rw [blame]
    exact ⟨_, rfl⟩
  | @setBytes n source =>
    rw [perform] at hrun ⊢
    rw [blame]
    apply twoPass_answers _ hrun
    unfold FixedBytes.preflight
    split_ifs
    · exact rfl
    · exact Reports.leaf (ctx.leaf .arrayLengthMismatch)
  | @setElement element n index v =>
    rw [perform] at hrun ⊢
    rw [blame]
    by_cases hlt : index < n
    · rw [setElement_eq ctx input hlt v] at hrun ⊢
      rw [dif_pos hlt]
      apply twoPass_answers _ hrun
      apply reports_childFailure
      exact preflightLogical_reports element h.1 false _ 0 _ v
    · rw [dif_neg hlt]
      exact ⟨_, if_neg hlt, rfl⟩
  | @copyElements element n values =>
    rw [perform] at hrun ⊢
    rw [blame]
    by_cases hlen : values.length = n
    · rw [copyElements_eq hlen] at hrun ⊢
      rw [if_pos hlen]
      exact twoPass_answers (reports_elements h.1 ctx input hlen) hrun
    · rw [if_neg hlen]
      exact ⟨_, dif_neg hlen, rfl⟩
  | @setOptional align inner v =>
    obtain rfl := hfree rfl
    rw [perform] at hrun ⊢
    rw [blame]
    exact twoPass_answers (preflightLogical_reports _ h false ctx 0 input v) hrun
  | copyFrom path p =>
    obtain rfl := hfree (payloadEnum_eq_none (Or.inl (isPayload_of_isPath path)))
    rw [perform, copyFrom_eq hvalid] at hrun ⊢
    rw [blame]
    exact twoPass_answers (preflightPatch_reports c h false ctx 0 input p) hrun
  | @copyPayload ir payload p =>
    rw [perform, TaggedMut.copyFrom] at hrun ⊢
    rw [blame]
    by_cases htag : (tagged ir payload).patchTag p = tag
    · rw [if_neg (not_not_intro htag)] at hrun ⊢
      rw [if_neg (not_not_intro htag)]
      exact twoPass_answers (preflightPatch_reports _ h false .root tag input p) hrun
    · rw [if_pos htag, if_pos htag]
      exact ⟨_, rfl, rfl⟩
  | clear gate =>
    rw [blame]
    exact ⟨_, rfl⟩

end Category

end

open Category

namespace Schema

/-- A call through a handle at any depth of valid storage succeeds when there is nothing to blame.
Otherwise it is rejected, and the kind of its error is the one of the check that failed exactly
where no schema on the way from that check to the call reports another in its place. -/
theorem errors_keep_their_cause [Target] (S : Schema) {n : ℕ} (s : Slice n) {input : Input S.wire}
    (haccess : S.accessMut s = .ok input) {c : Category} (p : Position S.category c)
    {part : Lent c} (hlent : p.lend .root 0 input = some (some part)) (op : Operation c) :
    (op.blame part.tag part.input.bytes = none ∧
      ∃ out, op.perform part.ctx part.tag part.input = some (.ok (), out)) ∨
    ∃ b e, op.blame part.tag part.input.bytes = some b ∧
      op.perform part.ctx part.tag part.input = some (.error e, part.input) ∧
      (e.kind = b.cause ↔ b.Keeps) := by
  obtain ⟨hacc, hfree, hpart⟩ :=
    p.lend_valid S.accepted (fun _ => rfl) (valid_of_accessMut haccess) hlent
  have hanswer := op.perform_answers hacc part.ctx hfree hpart
  cases hb : op.blame part.tag part.input.bytes with
  | none =>
    rw [hb] at hanswer
    exact Or.inl ⟨rfl, hanswer⟩
  | some b =>
    rw [hb] at hanswer
    obtain ⟨e, he, hkind⟩ := hanswer
    refine Or.inr ⟨b, e, rfl, he, ?_⟩
    rw [hkind]
    exact Blame.kind_eq_cause

section
attribute [local instance] Target.lp64

/-- A tag without its payload. -/
def tagOnly : holder.category.Patch := eitherField (some firstMode) none

/-- The same inside of the slot. -/
def tagOnlySlot : slotted.category.Patch := theField (some (some tagOnly))

theorem valid_settingSlot : slotted.category.Valid 0 settingSlot.bytes := by decide +kernel

theorem errors_keep_their_cause_slotted :
    (Operation.blame (.copyFrom rfl tagOnlySlot : Operation slotted.category) 0
        settingSlot.bytes = none ∧
      ∃ out, Operation.perform (.copyFrom rfl tagOnlySlot : Operation slotted.category) .root 0
        settingSlot = some (.ok (), out)) ∨
    ∃ b e, Operation.blame (.copyFrom rfl tagOnlySlot : Operation slotted.category) 0
        settingSlot.bytes = some b ∧
      Operation.perform (.copyFrom rfl tagOnlySlot : Operation slotted.category) .root 0
        settingSlot = some (.error e, settingSlot) ∧ (e.kind = b.cause ↔ b.Keeps) :=
  errors_keep_their_cause slotted _ (accessMut_of_valid valid_settingSlot) .here rfl
    (.copyFrom rfl tagOnlySlot)

/-- A patch that the nested record itself rejects as a tag without a payload is rejected by the
record around it for its capacity. -/
theorem replaced_cause :
    slotted.accessMut ⟨settingSlot.address, settingSlot.bytes, settingSlot.fits⟩ =
      .ok settingSlot ∧
    (∃ e, copyFrom holder.category .root settingHolder tagOnly = some (.error e, settingHolder) ∧
      e.kind = .tagOnlyPatch) ∧
    ∃ e, copyFrom slotted.category .root settingSlot tagOnlySlot = some (.error e, settingSlot) ∧
      e.kind = .capacityExceeded := by
  refine ⟨accessMut_of_valid valid_settingSlot, ?_, ?_⟩
  · exact ⟨_, rfl, rfl⟩
  · exact ⟨_, rfl, rfl⟩

end

end Schema

end ZeroSchema
