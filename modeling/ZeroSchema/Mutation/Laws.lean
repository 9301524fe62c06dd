import ZeroSchema.Mutation.Accept
import ZeroSchema.Mutation.Root
import ZeroSchema.Mutation.Writes

/-! Laws of the mutation engines: both write a value to the same bytes, and a patch that is
applied again changes nothing. A value and the bytes outside it determine the storage. -/
namespace ZeroSchema
open Storage Control Input

namespace Category
variable [Target]

/-- Storage is determined by its value and by the bytes that the value does not occupy. -/
theorem eq_of_changes (c : Category) (h : c.Accepted) {tag tag' : ℕ} {input out out' : Input c.wire}
    {v : c.Logical} (hout : Changes (c.footprint v) input out)
    (hout' : Changes (c.footprint v) input out') (hv : c.Represents tag out.bytes v)
    (hv' : c.Represents tag' out'.bytes v) : out' = out := by
  rw [changes_iff] at hout hout'
  have hvalue := Represents.agree c h out out' hv hv'
  apply Input.ext
  · exact hout'.1.trans hout.1.symm
  · apply Bytes.eq_of_view
    intro k
    by_cases hk : k ∈ c.footprint v
    · exact hvalue k hk
    · exact (hout'.2 k hk).trans (hout.2 k hk).symm

/-! ### The two engines -/

theorem patchFits_fromLogical (c : Category) (h : c.Accepted) {v : c.Logical} :
    c.PatchFits (c.fromLogical v) ↔ c.Fits v := by
  induction c with
  | primitive | bool | fixedBytes | scalarEnum | tagSibling | unit => exact Iff.rfl
  | string s => exact Iff.rfl
  | struct ir fields ih =>
    constructor
    · rintro ⟨htags, hfields⟩
      refine ⟨fun i t ht => ?_, fun i => (ih i (h.1 i).1).mp (hfields i _ rfl)⟩
      obtain ⟨entry, hentry, htag⟩ := htags i t ht _ rfl
      obtain rfl := Option.some.inj hentry
      rwa [entryTag_fromLogical, patchTag_fromLogical] at htag
    · rintro ⟨htags, hfields⟩
      constructor
      · rintro i t ht _ ⟨⟩
        refine ⟨_, rfl, ?_⟩
        rw [entryTag_fromLogical, patchTag_fromLogical, htags i t ht]
      · rintro i _ ⟨⟩
        exact (ih i (h.1 i).1).mpr (hfields i)
  | tagged ir payload ih => exact ih v.1 (h.1 v.1).1
  | array element n ih => exact Iff.rfl
  | optional align inner ih =>
    cases v with
    | none => exact Iff.rfl
    | some v => exact ih h.1

omit [Target] in
theorem suffices_fromLogical (c : Category) (base : Option c.Logical) (v : c.Logical) :
    c.Suffices base (c.fromLogical v) := by
  induction c with
  | primitive | bool | string | fixedBytes | scalarEnum | tagSibling | unit | array => trivial
  | struct ir fields ih =>
    rintro i _ ⟨⟩
    exact ih i _ (v i)
  | tagged ir payload ih =>
    obtain ⟨k, v⟩ := v
    exact ⟨fun _ => isComplete_fromLogical (payload k) v, ih k _ v⟩
  | optional align inner ih =>
    cases v with
    | none => trivial
    | some v => exact ⟨fun _ => isComplete_fromLogical inner v, ih _ v⟩

theorem exists_start {c : Category} {initializing : Bool} {tag : ℕ} {input : Input c.wire}
    (h : initializing = true ∨ c.Valid tag input.bytes) :
    ∃ base, c.Start initializing tag input.bytes base := by
  cases initializing with
  | true => exact ⟨none, rfl⟩
  | false =>
    obtain ⟨v, hv⟩ := (c.valid_iff tag input).mp (h.resolve_left Bool.false_ne_true)
    exact ⟨some v, v, rfl, hv⟩

/-- A preflighted patch leaves the merged value in the bytes that this value occupies, and
changes no others. -/
theorem commitPatch_determines (c : Category) (h : c.Accepted) (hd : c.DistinctTags)
    {initializing : Bool} {ctx : Context} {tag : ℕ} {input : Input c.wire}
    {base : Option c.Logical} {p : c.Patch} (hbase : c.Base initializing tag input.bytes base p)
    (hfree : c.payloadEnum = none → tag = 0)
    (hpre : c.preflightPatch initializing ctx tag input p = .ok ()) :
    ∃ w out, c.merge base p = some w ∧
      c.commitPatch p (initializing || decide (tag ≠ c.patchTag p)) input = some out ∧
      c.Represents (c.patchTag p) out.bytes w ∧ Changes (c.footprint w) input out := by
  obtain ⟨w, out, hmerge, hcommit, hrep⟩ := commitPatch_spec c h hd _ input hbase hfree hpre
  have hwrites := commitPatch_changes c h hcommit
  exact ⟨w, out, hmerge, hcommit, hrep, hwrites.mono (patchWrites_subset c h hmerge)⟩

theorem commitLogical_determines (c : Category) (h : c.Accepted) (hd : c.DistinctTags)
    {initializing : Bool} {tag : ℕ} {input : Input c.wire} {v : c.Logical}
    (hvalid : initializing = true ∨ c.Valid tag input.bytes)
    (hfree : c.payloadEnum = none → tag = 0) (hv : c.Fits v) :
    ∃ out, c.commitLogical v (initializing || decide (tag ≠ c.logicalTag v)) input = some out ∧
      c.Represents (c.logicalTag v) out.bytes v ∧ Changes (c.footprint v) input out := by
  obtain ⟨out, hcommit, hrep⟩ := commitLogical_spec c h hd initializing input hvalid hfree hv
  exact ⟨out, hcommit, hrep, commitLogical_changes c h hcommit⟩

/-- Both engines accept the values that fit. -/
theorem preflights_agree (c : Category) (h : c.Accepted) (hd : c.DistinctTags)
    {initializing : Bool} {ctx : Context} {tag : ℕ} {input : Input c.wire} {v : c.Logical}
    (hvalid : initializing = true ∨ c.Valid tag input.bytes) :
    c.preflightLogical initializing ctx tag input v = .ok () ↔
      c.preflightPatch initializing ctx tag input (c.fromLogical v) = .ok () := by
  obtain ⟨base, hstart⟩ := exists_start hvalid
  have hsuffices := suffices_fromLogical c base v
  rw [preflightLogical_eq_ok c h hd hvalid, preflightPatch_eq_ok c h hd hstart,
    patchFits_fromLogical c h]
  exact ⟨fun hfits => ⟨hfits, hsuffices⟩, fun hboth => hboth.1⟩

/-- Both engines write a value that fits to the same bytes. -/
theorem commits_agree (c : Category) (h : c.Accepted) (hd : c.DistinctTags)
    {initializing : Bool} {ctx : Context} {tag : ℕ} {input : Input c.wire} {v : c.Logical}
    (hfree : c.payloadEnum = none → tag = 0) (hvalid : initializing = true ∨ c.Valid tag input.bytes)
    (hpre : c.preflightLogical initializing ctx tag input v = .ok ()) :
    ∃ out, c.commitLogical v (initializing || decide (tag ≠ c.logicalTag v)) input = some out ∧
      c.commitPatch (c.fromLogical v) (initializing || decide (tag ≠ c.logicalTag v)) input =
        some out := by
  have hfits := (preflightLogical_eq_ok c h hd hvalid).mp hpre
  obtain ⟨base, hstart⟩ := exists_start hvalid
  have hbase := hstart.base (fun _ => isComplete_fromLogical c v)
  obtain ⟨out, hlogical, hrep, hchanges⟩ := commitLogical_determines c h hd hvalid hfree hfits
  obtain ⟨w, out', hmerge, hpatch, hrep', hchanges'⟩ :=
    commitPatch_determines c h hd hbase hfree ((preflights_agree c h hd hvalid).mp hpre)
  obtain rfl : w = v := Option.some.inj (hmerge.symm.trans (merge_fromLogical c h hfits base))
  obtain rfl := eq_of_changes c h hchanges hchanges' hrep hrep'
  rw [patchTag_fromLogical] at hpatch
  exact ⟨out', hlogical, hpatch⟩

/-! ### Applying a patch again -/

omit [Target] in
/-- Merging a patch into what it was merged to changes nothing. -/
theorem merge_merged (c : Category) {base : Option c.Logical} {p : c.Patch} {w : c.Logical}
    (h : c.merge base p = some w) : c.merge (some w) p = some w := by
  induction c with
  | primitive | bool | string | fixedBytes | tagSibling | unit | array => exact h
  | scalarEnum ir =>
    cases p with
    | none => rfl
    | some v => exact h
  | struct ir fields ih =>
    have hall := collect_eq_some.mp h
    refine collect_eq_some.mpr fun i => ?_
    have hfield := hall i
    unfold mergeField at hfield ⊢
    by_cases hi : (fields i).tagEnum.isSome = true
    · simp only [hi, if_true] at hfield ⊢
      cases ho : (ir.owner i).bind fun owner => (p owner).map (fields owner).patchTag with
      | none => rfl
      | some tag =>
        rw [ho] at hfield
        exact hfield
    · simp only [hi] at hfield ⊢
      cases hp : p i with
      | none => rfl
      | some entry =>
        rw [hp] at hfield
        exact ih i hfield
  | tagged ir payload ih =>
    obtain ⟨k, p⟩ := p
    obtain ⟨v, hv, rfl⟩ := Option.map_eq_some_iff.mp h
    have hpayload : (some (⟨k, v⟩ : (tagged ir payload).Logical)).bind (payloadOf k) = some v :=
      dif_pos rfl
    rw [merge, hpayload, ih k hv]
    rfl
  | optional align inner ih =>
    cases p with
    | none => exact h
    | some p =>
      obtain ⟨v, hv, rfl⟩ := Option.map_eq_some_iff.mp h
      rw [merge, Option.join_some, ih hv]
      rfl

omit [Target] in
/-- After a patch was merged there is a value to start from wherever the patch goes. -/
theorem suffices_merged (c : Category) {base : Option c.Logical} {p : c.Patch} {w : c.Logical}
    (h : c.merge base p = some w) : c.Suffices (some w) p := by
  induction c with
  | primitive | bool | string | fixedBytes | scalarEnum | tagSibling | unit | array => trivial
  | struct ir fields ih =>
    have hall := collect_eq_some.mp h
    intro i entry hp
    cases hi : (fields i).tagEnum with
    | some e => exact suffices_sibling (by rw [hi]; rfl) _ entry
    | none =>
      have hfield := hall i
      rw [mergeField_eq hi, hp] at hfield
      exact ih i hfield
  | tagged ir payload ih =>
    obtain ⟨k, p⟩ := p
    obtain ⟨v, hv, rfl⟩ := Option.map_eq_some_iff.mp h
    have hpayload : (some (⟨k, v⟩ : (tagged ir payload).Logical)).bind (payloadOf k) = some v :=
      dif_pos rfl
    unfold Suffices
    rw [hpayload]
    exact ⟨fun hnone => (Option.some_ne_none v hnone).elim, ih k hv⟩
  | optional align inner ih =>
    cases p with
    | none => trivial
    | some p =>
      obtain ⟨v, hv, rfl⟩ := Option.map_eq_some_iff.mp h
      exact ⟨fun hnone => (Option.some_ne_none v hnone).elim, ih hv⟩

theorem twoPass_eq_ok {W : Layout} {input out : Input W} {preflight : Outcome SchemaError Unit}
    {commit : Input W → Option (Input W)} :
    twoPass input preflight commit = some (.ok (), out) ↔
      preflight = .ok () ∧ commit input = some out := by
  cases preflight with
  | ok u =>
    simp only [twoPass, true_and]
    constructor
    · intro h
      obtain ⟨out', hout, heq⟩ := Option.map_eq_some_iff.mp h
      obtain rfl := congrArg Prod.snd heq
      exact hout
    · intro h
      rw [h]
      rfl
  | err e => simp [twoPass]
  | unreachable => simp [twoPass]

/-- A patch of the stored variant that was applied to valid storage can be applied again, and
does nothing then. -/
theorem patch_again {c : Category} (h : c.Accepted) (hd : c.DistinctTags) {ctx : Context} {tag : ℕ}
    (hfree : c.payloadEnum = none → tag = 0) {input out : Input c.wire} {p : c.Patch}
    (htag : c.patchTag p = tag) (hvalid : c.Valid tag input.bytes)
    (hok : twoPass input (c.preflightPatch false ctx tag input p) (c.commitPatch p false) =
      some (.ok (), out)) :
    c.Valid tag out.bytes ∧
      twoPass out (c.preflightPatch false ctx tag out p) (c.commitPatch p false) =
        some (.ok (), out) := by
  have hflag : (false || decide (tag ≠ c.patchTag p)) = false := by simp [htag]
  obtain ⟨v, hv⟩ := (c.valid_iff tag input).mp hvalid
  obtain ⟨hpre, hcommit⟩ := twoPass_eq_ok.mp hok
  have hstart : c.Start false tag input.bytes (some v) := ⟨v, rfl, hv⟩
  have hfits := ((preflightPatch_eq_ok c h hd hstart).mp hpre).1
  obtain ⟨w, out', hmerge, hcommit', hrep, -⟩ :=
    commitPatch_determines c h hd (hstart.base Bool.noConfusion) hfree hpre
  rw [hflag] at hcommit'
  obtain rfl := Option.some.inj (hcommit.symm.trans hcommit')
  rw [htag] at hrep
  have hstart' : c.Start false tag out.bytes (some w) := ⟨w, rfl, hrep⟩
  have hpre' : c.preflightPatch false ctx tag out p = .ok () :=
    (preflightPatch_eq_ok c h hd hstart').mpr ⟨hfits, suffices_merged c hmerge⟩
  obtain ⟨w', out', hmerge', hcommit', hrep', hchanges⟩ :=
    commitPatch_determines c h hd (hstart'.base Bool.noConfusion) hfree hpre'
  rw [hflag] at hcommit'
  obtain rfl : w = w' := Option.some.inj ((merge_merged c hmerge).symm.trans hmerge')
  obtain rfl := eq_of_changes c h Changes.refl hchanges hrep hrep'
  exact ⟨hrep.valid, twoPass_eq_ok.mpr ⟨hpre', hcommit'⟩⟩

/-- The calls that take a patch. -/
def Operation.IsPatch {c : Category} : Operation c → Prop
  | .copyFrom _ _ | .copyPayload _ => True
  | _ => False

theorem Operation.perform_again {c : Category} (op : Operation c) (hpatch : op.IsPatch)
    (h : c.Accepted) (hd : c.DistinctTags) {ctx : Context} {tag : ℕ}
    (hfree : c.payloadEnum = none → tag = 0) {input out : Input c.wire}
    (hvalid : c.Valid tag input.bytes) (hok : op.perform ctx tag input = some (.ok (), out)) :
    op.perform ctx tag out = some (.ok (), out) := by
  cases op with
  | copyFrom path p =>
    have hpay : c.payloadEnum = none := payloadEnum_eq_none (Or.inl (isPayload_of_isPath path))
    obtain rfl := hfree hpay
    rw [perform, copyFrom_eq hvalid] at hok
    obtain ⟨hout, hagain⟩ :=
      patch_again h hd (fun _ => rfl) (patchTag_eq_zero hpay p) hvalid hok
    rw [perform, copyFrom_eq hout]
    exact hagain
  | @copyPayload ir payload p =>
    rw [perform, TaggedMut.copyFrom] at hok ⊢
    split_ifs at hok ⊢ with htag
    · cases hok
    · exact (patch_again h hd hfree (not_ne_iff.mp htag) hvalid hok).2
  | _ => exact hpatch.elim

end Category

open Category

/-- On every destination the two engines accept the same values and leave the same bytes; on a
valid one that is what `copy_from` of the converted value does. -/
theorem engines_agree [Target] (c : Category) (h : c.Accepted) (hd : c.DistinctTags) (ctx : Context)
    {tag : ℕ} (hfree : c.payloadEnum = none → tag = 0) (input : Input c.wire) (v : c.Logical) :
    (∀ initializing, initializing = true ∨ c.Valid tag input.bytes →
      (c.preflightLogical initializing ctx tag input v = .ok () ↔
        c.preflightPatch initializing ctx tag input (c.fromLogical v) = .ok ()) ∧
      (c.preflightLogical initializing ctx tag input v = .ok () → ∃ out,
        c.commitLogical v (initializing || decide (tag ≠ c.logicalTag v)) input = some out ∧
        c.commitPatch (c.fromLogical v) (initializing || decide (tag ≠ c.logicalTag v)) input =
          some out)) ∧
    (c.isPath = true → c.Valid 0 input.bytes → ∀ out,
      twoPass input (c.preflightLogical false ctx 0 input v) (c.commitLogical v false) =
        some (.ok (), out) ↔
      copyFrom c ctx input (c.fromLogical v) = some (.ok (), out)) := by
  constructor
  · intro initializing hvalid
    exact ⟨preflights_agree c h hd hvalid, commits_agree c h hd hfree hvalid⟩
  · intro hpath hvalid out
    have hpay : c.payloadEnum = none := payloadEnum_eq_none (Or.inl (isPayload_of_isPath hpath))
    have hiff : c.preflightLogical false ctx 0 input v = .ok () ↔ _ :=
      preflights_agree c h hd (Or.inr hvalid)
    rw [copyFrom_eq hvalid]
    cases hpre : c.preflightLogical false ctx 0 input v with
    | ok u =>
      obtain ⟨out', hlogical, hpatch⟩ := commits_agree c h hd (fun _ => rfl) (Or.inr hvalid) hpre
      rw [logicalTag_flag hpay] at hlogical hpatch
      rw [hiff.mp hpre]
      simp only [twoPass, hlogical, hpatch]
    | err e =>
      have hne : c.preflightPatch false ctx 0 input (c.fromLogical v) ≠ .ok () := by
        intro hok
        rw [hiff.mpr hok] at hpre
        cases hpre
      cases hpatch : c.preflightPatch false ctx 0 input (c.fromLogical v) with
      | ok u => exact absurd hpatch hne
      | err e' => simp [twoPass]
      | unreachable => simp [twoPass]
    | unreachable =>
      have hagree := agree_logical c h false ctx 0 input v (fun _ => rfl)
      exact absurd hpre hagree.1

section
attribute [local instance] Target.lp64

/-- A reading and a mode. -/
def freshReading : (i : Fin 3) → (envelopeFields i).Logical :=
  eachField dataKind ⟨secondVariant, fun _ => 7#32⟩ (some firstMode)

theorem engines_agree_envelope : ∃ out,
    envelope.category.commitLogical freshReading true staleEnvelope = some out ∧
      envelope.category.commitPatch (envelope.category.fromLogical freshReading) true
        staleEnvelope = some out :=
  ((engines_agree envelope.category envelope.accepted (by decide) .root (fun _ => rfl)
    staleEnvelope freshReading).1 true (Or.inl rfl)).2 (by decide)

end

namespace Schema

/-- Where the tags of every payload declaration are distinct, a patch that was applied through
any handle can be applied again, and then changes nothing. -/
theorem patches_are_idempotent [Target] (S : Schema) (hd : S.category.DistinctTags) {n : ℕ}
    (s : Slice n) {input : Input S.wire} (haccess : S.accessMut s = .ok input) {c : Category}
    (pos : Position S.category c) {part : Lent c}
    (hlent : pos.lend .root 0 input = some (some part)) (op : Operation c) (hpatch : op.IsPatch)
    {out : Input c.wire} (hok : op.perform part.ctx part.tag part.input = some (.ok (), out)) :
    op.perform part.ctx part.tag out = some (.ok (), out) := by
  have hvalid := valid_of_accessMut haccess
  obtain ⟨hacc, hfree, hpart⟩ := pos.lend_valid S.accepted (fun _ => rfl) hvalid hlent
  exact op.perform_again hpatch hacc (pos.distinctTags hd) hfree hpart hok

section
attribute [local instance] Target.lp64

theorem patches_are_idempotent_envelope :
    (Operation.copyFrom rfl emptyingPatch).perform .root 0 emptiedEnvelope =
      some (.ok (), emptiedEnvelope) :=
  patches_are_idempotent envelope (by decide) _ (accessMut_of_valid valid_readingEnvelope) .here
    lend_readingEnvelope (.copyFrom rfl emptyingPatch) trivial rfl

/-- A count of zero, named by the second path to its tag. -/
def zeroCount : (i : Fin 2) → Option (holderFields i).Patch :=
  eitherField none (some ⟨secondVariant, fun _ => some 0#8⟩)

/-- Two paths to one tag value: a patch of the payload of one is written over that of the other,
and what is left need not be a holder. -/
theorem patch_twice_with_aliased_tags :
    holder.accessMut ⟨settingHolder.address, settingHolder.bytes, settingHolder.fits⟩ =
      .ok settingHolder ∧
    (Operation.copyFrom rfl zeroCount).perform .root 0 settingHolder =
      some (.ok (), clearedHolder) ∧
    ∀ out, (Operation.copyFrom rfl zeroCount).perform .root 0 clearedHolder ≠
      some (.ok (), out) := by
  refine ⟨accessMut_of_valid valid_settingHolder, rfl, ?_⟩
  intro out hok
  have hcopy : copyFrom holder.category .root clearedHolder zeroCount = some (.ok (), out) := hok
  obtain ⟨hpre, -⟩ := twoPass_eq_ok.mp hcopy
  obtain ⟨_, hprove, -⟩ := Outcome.bind_eq_ok.mp hpre
  exact not_valid_clearedHolder ((prove_eq_ok _ _ _ _).mp hprove)

end

end Schema

end ZeroSchema
