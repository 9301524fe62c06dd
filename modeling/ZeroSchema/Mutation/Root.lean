import ZeroSchema.Access.Root
import ZeroSchema.Mutation.Initialize
import ZeroSchema.Mutation.Position

/-! What the owner of a root can rely on, from the exclusive access on. -/
namespace ZeroSchema
open Storage Control Category

namespace Schema

section
variable [Target] {S : Schema} {n : ℕ} {s : Slice n} {input : Input S.wire}

theorem payloadEnum (S : Schema) : S.category.payloadEnum = none :=
  payloadEnum_eq_none (Or.inl (isPayload_of_isPath S.path))

theorem valid_of_access (h : S.access s = .ok input) : S.category.Valid 0 input.bytes := by
  obtain ⟨_, -, h⟩ := Outcome.bind_eq_ok.mp h
  obtain ⟨_, hprove, h⟩ := Outcome.bind_eq_ok.mp h
  obtain rfl := Outcome.ok.inj h
  exact (prove_eq_ok _ _ _ _).mp hprove

/-- Both kinds of access prove the same bytes. -/
theorem valid_of_accessMut (h : S.accessMut s = .ok input) : S.category.Valid 0 input.bytes :=
  valid_of_access (s := s) h

/-- Access to valid bytes returns them as they are. -/
theorem access_of_valid (hvalid : S.category.Valid 0 input.bytes) :
    S.access ⟨input.address, input.bytes, input.fits⟩ = .ok input := by
  have hexact : Input.fromChecked S.wire ⟨input.address, input.bytes, input.fits⟩ = .ok input := by
    rw [Input.fromChecked, dif_pos rfl, dif_pos (Nat.mod_eq_zero_of_dvd input.aligned)]
    rfl
  rw [access, hexact]
  change (S.category.prove .root 0 input >>= fun _ => _) = _
  rw [(prove_eq_ok _ _ _ _).mpr hvalid]
  rfl

theorem accessMut_of_valid (hvalid : S.category.Valid 0 input.bytes) :
    S.accessMut ⟨input.address, input.bytes, input.fits⟩ = .ok input := access_of_valid hvalid

/-- Every program runs on an accessed root, and every state that it visits is valid. -/
theorem run_visits_valid (hd : S.category.DistinctTags) (haccess : S.accessMut s = .ok input)
    (m : Mutation S.category) :
    ∃ trace, m.run .root 0 input = some trace ∧
      ∀ state, Trace.Visits input trace state → S.category.Valid 0 state.bytes := by
  have hvalid := valid_of_accessMut haccess
  obtain ⟨trace, hrun, hall⟩ := m.run_valid S.accepted hd .root (fun _ => rfl) hvalid
  refine ⟨trace, hrun, fun state hstate => ?_⟩
  exact hstate.of_forall (P := fun t : Input S.wire => S.category.Valid 0 t.bytes) hvalid hall

/-- What one successful `copy_from` does to a valid root. -/
theorem copyFrom_spec (hd : S.category.DistinctTags) {p : S.category.Patch} {v : S.category.Logical}
    (hv : S.category.Represents 0 input.bytes v) :
    (∃ e, copyFrom S.category .root input p = some (.error e, input)) ∨
    ∃ w out, S.category.merge (some v) p = some w ∧
      copyFrom S.category .root input p = some (.ok (), out) ∧
      S.category.Represents 0 out.bytes w := by
  rw [copyFrom_eq hv.valid]
  rcases patch_cases S.accepted .root (fun _ => rfl) input p (patchTag_eq_zero S.payloadEnum p) with
    he | ⟨out, hrun, hmerge⟩
  · exact Or.inl he
  · obtain ⟨w, hw, hrep⟩ := hmerge hd v hv
    exact Or.inr ⟨w, out, hw, hrun, hrep⟩

end

section
attribute [local instance] Target.lp64

theorem valid_readingEnvelope : envelope.category.Valid 0 readingEnvelope.bytes := by decide

theorem valid_emptyEnvelope : envelope.category.Valid 0 emptyEnvelope.bytes := by decide +kernel

/-- The whole envelope is lent at its root. -/
theorem lend_readingEnvelope : (Position.here (c := envelope.category)).lend .root 0 readingEnvelope =
    some (some ⟨.root, 0, readingEnvelope⟩) := rfl

theorem valid_settingHolder : holder.category.Valid 0 settingHolder.bytes := by decide

theorem not_valid_clearedHolder : ¬holder.category.Valid 0 clearedHolder.bytes := by decide

/-- Only the message, which names its kind, and the mode. -/
def emptyingPatch : (i : Fin 3) → Option (envelopeFields i).Patch :=
  eachField none (some ⟨firstVariant, ()⟩) (some none)

/-- Writes the reading, empties the message and clears the mode, which then lends nothing. -/
def emptying : Mutation envelope.category :=
  .seq
    (.field messageField rfl (.variant secondVariant (.field onlyField rfl (.call (.setScalar 9#32)))))
    (.seq (.call (.copyFrom rfl emptyingPatch))
      (.field modeField rfl (.present (.call (.setEnum firstMode)))))

end

/-- On a valid wire every call through every handle answers without a panic, and a call that
answers with an error has changed no byte of the whole span; in a run of any program, on any
wire, no failed call changes a byte. -/
theorem calls_are_atomic [Target] (S : Schema) {n : ℕ} (s : Slice n) {input : Input S.wire}
    (haccess : S.accessMut s = .ok input) :
    (∀ (c : Category) (p : Position S.category c) (op : Operation c) (part : Lent c),
      p.lend .root 0 input = some (some part) →
      ∃ result out, (p.wrap (.call op)).run .root 0 input = some [(result, out)] ∧
        ((∃ e, result = .error e) → out = input)) ∧
    ∀ (m : Mutation S.category) (trace : Trace (Input S.wire) (Except SchemaError Unit)),
      m.run .root 0 input = some trace → Trace.Steps KeptOnError input trace := by
  refine ⟨fun c p op part hlent => ?_, fun m trace => m.run_steps⟩
  have hvalid := valid_of_accessMut haccess
  obtain ⟨hacc, hfree, hpart⟩ := p.lend_valid S.accepted (fun _ => rfl) hvalid hlent
  obtain ⟨lift, hlift, hrun⟩ := p.wrap_run hlent
  have hcall (answer) (h : op.perform part.ctx part.tag part.input = some answer) :
      (p.wrap (.call op)).run .root 0 input = some [(answer.1, lift answer.2)] := by
    rw [hrun, Mutation.run, h]
    rfl
  rcases op.perform_cases hacc part.ctx hfree hpart with ⟨e, h⟩ | ⟨out, h, -⟩
  · exact ⟨_, _, hcall _ h, fun _ => hlift⟩
  · refine ⟨_, _, hcall _ h, ?_⟩
    rintro ⟨e, he⟩
    cases he

section
attribute [local instance] Target.lp64

theorem calls_are_atomic_envelope :
    ∃ result out, (Position.here.wrap (.call (.copyFrom rfl emptyingPatch))).run .root 0
        readingEnvelope = some [(result, out)] ∧
      ((∃ e, result = .error e) → out = readingEnvelope) :=
  (calls_are_atomic envelope _ (accessMut_of_valid valid_readingEnvelope)).1 envelope.category .here
    (.copyFrom rfl emptyingPatch) ⟨.root, 0, readingEnvelope⟩ rfl

end

/-- A successful `copy_from` replaces the value by the merge of the patch into it. -/
theorem copyFrom_merges [Target] (S : Schema) (hd : S.category.DistinctTags) {n : ℕ} (s : Slice n)
    {input out : Input S.wire} (haccess : S.accessMut s = .ok input) (p : S.category.Patch)
    (hok : copyFrom S.category .root input p = some (.ok (), out)) :
    ∃ v w, S.category.materialize 0 input = some v ∧ S.category.merge (some v) p = some w ∧
      S.category.materialize 0 out = some w := by
  obtain ⟨v, hv⟩ := (valid_iff _ _ _).mp (valid_of_accessMut haccess)
  rcases copyFrom_spec hd (p := p) hv with ⟨e, he⟩ | ⟨w, out', hmerge, hout, hw⟩
  · cases hok.symm.trans he
  · obtain rfl : out = out' := by
      simpa using hok.symm.trans hout
    exact ⟨v, w, materialize_eq _ input hv, hmerge, materialize_eq _ out hw⟩

section
attribute [local instance] Target.lp64

theorem copyFrom_merges_envelope :
    ∃ v w, envelope.category.materialize 0 readingEnvelope = some v ∧
      envelope.category.merge (some v) emptyingPatch = some w ∧
      envelope.category.materialize 0
        { readingEnvelope with
          bytes := ⟨[0, 0, 0, 0, 5, 0, 0, 0, 0, 0, 0, 0], by decide⟩ } = some w :=
  copyFrom_merges envelope (by decide) _ (accessMut_of_valid valid_readingEnvelope) emptyingPatch rfl

end

/-- The value of any valid wire can be written over any other, which then reads back as it. -/
theorem transfer_round_trip [Target] (S : Schema) (hd : S.category.DistinctTags) {m n : ℕ}
    (s : Slice m) (d : Slice n) {src dst : Input S.wire} (hsrc : S.access s = .ok src)
    (hdst : S.accessMut d = .ok dst) :
    ∃ v out, S.category.materialize 0 src = some v ∧
      copyFrom S.category .root dst (S.category.fromLogical v) = some (.ok (), out) ∧
      S.category.materialize 0 out = some v := by
  obtain ⟨v, hv⟩ := (valid_iff _ _ _).mp (valid_of_access hsrc)
  obtain ⟨u, hu⟩ := (valid_iff _ _ _).mp (valid_of_accessMut hdst)
  have hfits := fits_of_represents _ S.accepted src hv
  have hpre : S.category.preflightPatch false .root 0 dst (S.category.fromLogical v) = .ok () :=
    preflightPatch_fromLogical _ S.accepted hd (Or.inr hu.valid) hfits
  obtain ⟨w, out, hmerge, hcommit, hw⟩ :=
    commitPatch_spec _ S.accepted hd false dst ⟨u, rfl, hu⟩ (fun _ => rfl) hpre
  rw [merge_fromLogical _ S.accepted hfits] at hmerge
  obtain rfl := Option.some.inj hmerge
  rw [patchTag_flag S.payloadEnum] at hcommit
  rw [patchTag_eq_zero S.payloadEnum] at hw
  refine ⟨v, out, materialize_eq _ src hv, ?_, materialize_eq _ out hw⟩
  rw [copyFrom_eq hu.valid, hpre, twoPass, hcommit]
  rfl

section
attribute [local instance] Target.lp64

theorem transfer_round_trip_envelope :
    ∃ v out, envelope.category.materialize 0 readingEnvelope = some v ∧
      copyFrom envelope.category .root emptyEnvelope (envelope.category.fromLogical v) =
        some (.ok (), out) ∧
      envelope.category.materialize 0 out = some v :=
  transfer_round_trip envelope (by decide) _ _ (access_of_valid valid_readingEnvelope)
    (accessMut_of_valid valid_emptyEnvelope)

end

end Schema

end ZeroSchema
