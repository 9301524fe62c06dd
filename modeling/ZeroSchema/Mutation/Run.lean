import ZeroSchema.Mutation.Call

/-! What a whole program of calls preserves, through every handle that it borrows. -/
namespace ZeroSchema
open Storage Control
variable [Target]

theorem checkedRange_eq_ok {available offset length : ℕ} {range : Cell available length}
    (h : checkedRange available offset length = .ok range) : range.offset = offset := by
  unfold checkedRange at h
  split_ifs at h
  exact congrArg Cell.offset (Except.ok.inj h).symm

/-- A part that is put back unchanged changes nothing. -/
theorem release_subrange {W F : Layout} {input : Input W} {offset : ℕ} {child : Input F}
    (h : input.subrange F offset = .ok child) : input.release offset child = input := by
  rw [Input.subrange, Input.subrangeBytes] at h
  cases hrange : checkedRange W.size offset F.size with
  | error e => rw [hrange] at h; cases h
  | ok range =>
    rw [hrange] at h
    obtain rfl := checkedRange_eq_ok hrange
    change Input.fromChecked F (input.slice range) = _ at h
    have hbytes : child.bytes = range.get input.bytes := by
      unfold Input.fromChecked at h
      split_ifs at h
      rw [← Except.ok.inj h]
      rfl
    rw [Input.release, Input.releaseBytes_cell, hbytes]
    exact Input.ext rfl (Cell.put_get _ _)

theorem provedChild_eq_some {W F : Layout} {input : Input W} {offset : ℕ} {child : Input F}
    {prove : Input F → Outcome SchemaError Unit} : provedChild input offset prove = some child ↔
      input.subrange F offset = .ok child ∧ prove child = .ok () := by
  rw [provedChild]
  cases input.subrange F offset with
  | error e => simp [Except.toOption]
  | ok x =>
    simp only [Except.toOption, Option.bind_eq_bind, Option.bind_some, Option.bind_eq_some_iff,
      Outcome.value?_eq_some, Option.some.injEq, Except.ok.injEq]
    constructor
    · rintro ⟨_, hprove, rfl⟩
      exact ⟨rfl, hprove⟩
    · rintro ⟨rfl, hprove⟩
      exact ⟨(), hprove, rfl⟩

namespace Category

section Session
variable {W F : Layout} (input : Input W) (p : Place W F)
  {prove : Input F → Outcome SchemaError Unit}
  {run : Input F → Option (Trace (Input F) (Except SchemaError Unit))}

theorem provedChild_place (hprove : prove (input.child p) = .ok ()) :
    provedChild input p.offset prove = some (input.child p) := by
  rw [provedChild, Input.subrange_place]
  change ((prove (input.child p)).value? >>= _) = _
  rw [Outcome.value?_eq_some.mpr hprove]
  rfl

theorem session_place (hprove : prove (input.child p) = .ok ()) :
    session input p.offset prove run = (run (input.child p)).map
      (Trace.within fun child => input.put p.toCell child.bytes) := by
  rw [session, provedChild_place input p hprove]
  change (run (input.child p) >>= _) = _
  cases run (input.child p) with
  | none => rfl
  | some trace =>
    exact congrArg (fun lift => some (trace.within lift)) (funext (input.release_place p))

/-- What a proved part may become, its whole may become. -/
theorem session_valid {P : Bytes W.size → Prop} {Q : Bytes F.size → Prop}
    (hprove : prove (input.child p) = .ok ())
    (hrun : ∃ trace, run (input.child p) = some trace ∧ ∀ a ∈ trace, Q a.2.bytes)
    (hput : ∀ x, Q x → P (p.put input.bytes x)) :
    ∃ trace, session input p.offset prove run = some trace ∧ ∀ a ∈ trace, P a.2.bytes := by
  obtain ⟨trace, hrun, hall⟩ := hrun
  refine ⟨trace.within fun child => input.put p.toCell child.bytes, ?_, ?_⟩
  · rw [session_place input p hprove, hrun]
    rfl
  · exact Trace.forall_within (P := fun s : Input W => P s.bytes) |>.mpr
      fun a ha => hput _ (hall a ha)

end Session

/-- The sibling tag that a handle reads is the one that the bytes store. -/
theorem siblingTag_proved {ir : StructIr} {fields : Fin ir.arity → Category}
    (input : Input (struct ir fields).wire) (i : Fin ir.arity) :
    ir.siblingTag
      (fun t => (provedTag ir fields (fun i => (fields i).prove) input t).value?) i =
      tagAt ir fields input.bytes i := by
  have hload (t : Fin ir.arity) :
      (provedTag ir fields (fun i => (fields i).prove) input t).value? = _ :=
    value?_provedTag (prove_eq_ok (fields t))
  rw [funext hload]
  rfl

/-- A field that is selected by no sibling has the tag zero. -/
theorem tagAt_eq_zero {ir : StructIr} {fields : Fin ir.arity → Category} (hlink : ir.Linked fields)
    {i : Fin ir.arity} {b : Bytes (struct ir fields).wire.size} {tag : ℕ}
    (htag : tagAt ir fields b i = some tag) (hi : (fields i).payloadEnum = none) : tag = 0 := by
  rw [tagAt_of_none (hlink.tagField_eq_none hi)] at htag
  exact (Option.some.inj htag).symm

/-- Whatever is called on a valid handle and on the handles that it lends, nothing panics and
every state is valid. -/
theorem Mutation.run_valid {c : Category} (m : Mutation c) (h : c.Accepted) (hd : c.DistinctTags)
    (ctx : Context) {tag : ℕ} (hfree : c.payloadEnum = none → tag = 0) {input : Input c.wire}
    (hvalid : c.Valid tag input.bytes) :
    ∃ trace, m.run ctx tag input = some trace ∧ ∀ a ∈ trace, c.Valid tag a.2.bytes := by
  induction m generalizing ctx tag with
  | call op =>
    rcases op.perform_cases h ctx hfree hvalid with ⟨e, hrun⟩ | ⟨out, hrun, hout⟩
    · exact ⟨[(.error e, input)], by rw [run, hrun]; rfl, by simpa using hvalid⟩
    · exact ⟨[(.ok (), out)], by rw [run, hrun]; rfl, by simpa using hout hd⟩
  | skip => exact ⟨[], rfl, by simp⟩
  | @seq c first rest ihf ihr =>
    obtain ⟨done, hdone, hdone'⟩ := ihf h hd ctx hfree hvalid
    have hfinal : c.Valid tag (Trace.final input done).bytes :=
      Trace.final_of_forall (P := fun s : Input c.wire => c.Valid tag s.bytes) hvalid hdone'
    obtain ⟨more, hmore, hmore'⟩ := ihr h hd ctx hfree hfinal
    refine ⟨done ++ more, ?_, ?_⟩
    · rw [run, hdone]
      change (rest.run ctx tag (Trace.final input done) >>= _) = _
      rw [hmore]
      rfl
    · intro a ha
      rcases List.mem_append.mp ha with ha | ha
      · exact hdone' a ha
      · exact hmore' a ha
  | @field ir fields i hi m ih =>
    obtain rfl := hfree rfl
    obtain ⟨tag, htag, hfield⟩ := hvalid i
    rw [run, siblingTag_proved, htag]
    exact session_valid input (fieldPlace ir fields i) ((prove_eq_ok _ _ _ _).mpr hfield)
      (ih (h.1 i).1 (hd i) _ (tagAt_eq_zero h.2.1 htag) hfield)
      fun x hx => valid_put_field h.2.1 hi hvalid htag hx
  | @element element n index m ih =>
    obtain rfl := hfree rfl
    rw [run]
    split_ifs with hlt
    · have helement := hvalid ⟨index, hlt⟩
      rw [checkedElementOffset_eq input ⟨index, hlt⟩]
      exact session_valid input (elementPlace element ⟨index, hlt⟩)
        ((prove_eq_ok _ _ _ _).mpr helement) (ih h.1 hd _ (fun _ => rfl) helement)
        fun x hx => valid_put_element hvalid hx
    · exact ⟨[], rfl, by simp⟩
  | @present align inner m ih =>
    obtain rfl := hfree rfl
    rw [run]
    split_ifs with hz
    · exact ⟨[], rfl, by simp⟩
    · have hvalue := hvalid.resolve_left (mt Input.isAllZero_eq_true.mpr hz)
      refine session_valid input (presentPlace align inner) ((prove_eq_ok _ _ _ _).mpr hvalue)
        (ih h.1 hd _ (fun _ => rfl) hvalue) fun x hx => Or.inr ?_
      rwa [Cell.get_put]
  | @variant ir payload k m ih =>
    rw [run]
    split_ifs with hk
    · obtain ⟨j, hj, hpayload⟩ := hvalid
      obtain rfl : j = k := by
        rw [hk, ir.select_tag hd.1] at hj
        exact (Option.some.inj hj).symm
      refine session_valid input (payloadPlace ir payload j) ((prove_eq_ok _ _ _ _).mpr hpayload)
        (ih (h.1 j).1 (hd.2 j) _ (fun _ => rfl) hpayload) fun x hx => ⟨j, hj, ?_⟩
      rwa [Cell.get_put]
    · exact ⟨[], rfl, by simp⟩

/-- A step of a run: an error leaves the storage as it was. -/
def KeptOnError {W : Layout} (before : Input W) (result : Except SchemaError Unit)
    (after : Input W) : Prop := (∃ e, result = .error e) → after = before

theorem session_steps {W F : Layout} {input : Input W} {offset : ℕ}
    {prove : Input F → Outcome SchemaError Unit}
    {run : Input F → Option (Trace (Input F) (Except SchemaError Unit))}
    {trace : Trace (Input W) (Except SchemaError Unit)}
    (hrun : ∀ child trace, run child = some trace → Trace.Steps KeptOnError child trace)
    (h : session input offset prove run = some trace) :
    Trace.Steps KeptOnError input trace := by
  obtain ⟨child, hchild, h⟩ := Option.bind_eq_some_iff.mp h
  obtain ⟨inner, hinner, h⟩ := Option.bind_eq_some_iff.mp h
  obtain rfl := Option.some.inj h
  have hsteps : Trace.Steps KeptOnError (input.release offset child)
      (inner.within (input.release offset)) :=
    (hrun child inner hinner).within fun a r b hab he => congrArg _ (hab he)
  rwa [release_subrange (provedChild_eq_some.mp hchild).1] at hsteps

/-- In every run, of any program and from any bytes, the calls that fail change no byte. -/
theorem Mutation.run_steps {c : Category} (m : Mutation c) {ctx : Context} {tag : ℕ}
    {input : Input c.wire} {trace : Trace (Input c.wire) (Except SchemaError Unit)}
    (h : m.run ctx tag input = some trace) : Trace.Steps KeptOnError input trace := by
  induction m generalizing ctx tag with
  | call op =>
    obtain ⟨⟨r, out⟩, hanswer, h⟩ := Option.bind_eq_some_iff.mp h
    obtain rfl := Option.some.inj h
    refine ⟨?_, trivial⟩
    rintro ⟨e, rfl⟩
    exact op.perform_error hanswer
  | skip =>
    obtain rfl := Option.some.inj h
    trivial
  | seq first rest ihf ihr =>
    obtain ⟨done, hdone, h⟩ := Option.bind_eq_some_iff.mp h
    obtain ⟨more, hmore, h⟩ := Option.bind_eq_some_iff.mp h
    obtain rfl := Option.some.inj h
    exact (ihf hdone).append (ihr hmore)
  | field i hi m ih =>
    obtain ⟨tag, -, h⟩ := Option.bind_eq_some_iff.mp h
    exact session_steps (fun _ _ => ih) h
  | element index m ih =>
    rw [run] at h
    split_ifs at h
    · obtain ⟨offset, -, h⟩ := Option.bind_eq_some_iff.mp h
      exact session_steps (fun _ _ => ih) h
    · obtain rfl := Option.some.inj h
      trivial
  | present m ih =>
    rw [run] at h
    split_ifs at h
    · obtain rfl := Option.some.inj h
      trivial
    · exact session_steps (fun _ _ => ih) h
  | variant k m ih =>
    rw [run] at h
    split_ifs at h
    · exact session_steps (fun _ _ => ih) h
    · obtain rfl := Option.some.inj h
      trivial

end Category

end ZeroSchema
