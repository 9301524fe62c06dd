import ZeroSchema.Mutation.Handle

/-! What a call can do: it returns an error and has written nothing, or it succeeds and leaves
valid storage. -/
namespace ZeroSchema
open Storage Control
variable [Target]

theorem twoPass_cases {W : Layout} {input : Input W} {preflight : Outcome SchemaError Unit}
    (commit : Input W → Option (Input W)) (h : Agree preflight (commit input)) :
    (∃ e, twoPass input preflight commit = some (.error e, input)) ∨
    (preflight = .ok () ∧ ∃ out, commit input = some out ∧
      twoPass input preflight commit = some (.ok (), out)) := by
  cases preflight with
  | ok u =>
    obtain ⟨out, hout⟩ := h.2 rfl
    exact Or.inr ⟨rfl, out, hout, by simp [twoPass, hout]⟩
  | err e => exact Or.inl ⟨e, rfl⟩
  | unreachable => exact absurd rfl h.1

theorem twoPass_error {W : Layout} {input out : Input W} {preflight : Outcome SchemaError Unit}
    {commit : Input W → Option (Input W)} {e : SchemaError}
    (h : twoPass input preflight commit = some (.error e, out)) : out = input := by
  cases preflight with
  | ok u =>
    obtain ⟨_, -, h⟩ := Option.map_eq_some_iff.mp h
    cases h
  | err e =>
    cases h
    rfl
  | unreachable => cases h

namespace Category

/-- A checked value is written over a valid one. -/
theorem assign_spec {c : Category} (h : c.Accepted) (hd : c.DistinctTags)
    (hpay : c.payloadEnum = none) {ctx : Context} {input : Input c.wire} {v : c.Logical}
    (hvalid : c.Valid 0 input.bytes) (hok : c.preflightLogical false ctx 0 input v = .ok ()) :
    ∃ out, c.commitLogical v false input = some out ∧ c.Represents 0 out.bytes v :=
  commitLogical_untagged hpay (commitLogical_spec c h hd false input (Or.inr hvalid) (fun _ => rfl)
    ((preflightLogical_eq_ok c h hd (Or.inr hvalid)).mp hok))

/-- A call that writes one complete value. -/
theorem assign_cases {c : Category} (h : c.Accepted) (hpay : c.payloadEnum = none) (ctx : Context)
    (input : Input c.wire) (v : c.Logical) :
    (∃ e, twoPass input (c.preflightLogical false ctx 0 input v) (c.commitLogical v false) =
      some (.error e, input)) ∨
    ∃ out, twoPass input (c.preflightLogical false ctx 0 input v) (c.commitLogical v false) =
        some (.ok (), out) ∧
      (c.DistinctTags → c.Valid 0 input.bytes → c.Represents 0 out.bytes v) := by
  have hagree := agree_logical c h false ctx 0 input v fun _ => rfl
  rw [logicalTag_flag hpay] at hagree
  rcases twoPass_cases (c.commitLogical v false) hagree with he | ⟨hok, out, hout, hrun⟩
  · exact Or.inl he
  · refine Or.inr ⟨out, hrun, fun hd hvalid => ?_⟩
    obtain ⟨out', hout', hrep⟩ := assign_spec h hd hpay hvalid hok
    obtain rfl := Option.some.inj (hout.symm.trans hout')
    exact hrep

/-- A call that writes a patch. -/
theorem patch_cases {c : Category} (h : c.Accepted) {tag : ℕ} (ctx : Context)
    (hfree : c.payloadEnum = none → tag = 0) (input : Input c.wire) (p : c.Patch)
    (htag : c.patchTag p = tag) :
    (∃ e, twoPass input (c.preflightPatch false ctx tag input p) (c.commitPatch p false) =
      some (.error e, input)) ∨
    ∃ out, twoPass input (c.preflightPatch false ctx tag input p) (c.commitPatch p false) =
        some (.ok (), out) ∧
      (c.DistinctTags → ∀ v, c.Represents tag input.bytes v →
        ∃ w, c.merge (some v) p = some w ∧ c.Represents tag out.bytes w) := by
  have hflag : (false || decide (tag ≠ c.patchTag p)) = false := by simp [htag]
  have hagree := agree_patch c h false ctx tag input p hfree
  rw [hflag] at hagree
  rcases twoPass_cases (c.commitPatch p false) hagree with he | ⟨hok, out, hout, hrun⟩
  · exact Or.inl he
  · refine Or.inr ⟨out, hrun, fun hd v hv => ?_⟩
    obtain ⟨w, out', hmerge, hout', hrep⟩ :=
      commitPatch_spec c h hd false input ⟨v, rfl, hv⟩ hfree hok
    rw [hflag] at hout'
    obtain rfl := Option.some.inj (hout.symm.trans hout')
    exact ⟨w, hmerge, htag ▸ hrep⟩

theorem copyFrom_eq {c : Category} {ctx : Context} {input : Input c.wire} {p : c.Patch}
    (hvalid : c.Valid 0 input.bytes) : ZeroSchema.copyFrom c ctx input p =
      twoPass input (c.preflightPatch false ctx 0 input p) (c.commitPatch p false) := by
  rw [ZeroSchema.copyFrom, (c.prove_eq_ok ctx 0 input).mpr hvalid, Outcome.ok_bind]

/-- Checking the locations first makes no difference inside a checked array. -/
theorem copyElements_eq {element : Category} {n : ℕ} {ctx : Context}
    {input : Input (array element n).wire} {values : List element.Logical}
    (h : values.length = n) : ArrayMut.copyFrom element n ctx input values =
      twoPass input
        ((array element n).preflightLogical false ctx 0 input fun j => values.get (j.cast h.symm))
        ((array element n).commitLogical (fun j => values.get (j.cast h.symm)) false) := by
  have hlocations : ArrayMut.preflightElementLocations element n ctx input = .ok () :=
    forEach_eq_ok.mpr fun j => by rw [selectElement_eq]; rfl
  rw [ArrayMut.copyFrom, dif_pos h, hlocations, Outcome.ok_bind, preflightLogical]
  congr 2
  funext j
  rw [selectElement_eq]
  rfl

theorem valid_put_element {element : Category} {n : ℕ} {b : Bytes (array element n).wire.size}
    {j : Fin n} {x : Bytes element.wire.size} (hb : (array element n).Valid 0 b)
    (hx : element.Valid 0 x) : (array element n).Valid 0 ((elementPlace element j).put b x) := by
  intro k
  by_cases hkj : k = j
  · rw [hkj, Cell.get_put]
    exact hx
  · rw [Cell.get_put_of_disjoint (elementPlace_disjoint element hkj)]
    exact hb k

section Element
variable {element : Category} {n index : ℕ} (ctx : Context) (input : Input (array element n).wire)
  (hlt : index < n) (v : element.Logical)

/-- A set of an element that is there checks and writes its storage only. -/
theorem setElement_eq : ArrayMut.set element n ctx input index v = twoPass input
    (element.childFailure (ctx.element n index) .capacityExceeded
      (element.preflightLogical false (ctx.element n index) 0
        (input.child (elementPlace element ⟨index, hlt⟩)) v))
    (commitElement element n index (element.commitLogical v false)) := by
  have hselect : selectElement element n input index =
      .ok (input.child (elementPlace element ⟨index, hlt⟩)) :=
    selectElement_eq element input ⟨index, hlt⟩
  rw [ArrayMut.set, if_pos hlt, hselect]
  rfl

theorem setElement_cases (h : (array element n).Accepted) :
    (∃ e, ArrayMut.set element n ctx input index v = some (.error e, input)) ∨
    ∃ out, ArrayMut.set element n ctx input index v = some (.ok (), out) ∧
      (element.DistinctTags →
        element.Valid 0 ((elementPlace element ⟨index, hlt⟩).get input.bytes) →
        ∃ new : Input element.wire, element.Represents 0 new.bytes v ∧
          out = input.put (elementPlace element ⟨index, hlt⟩).toCell new.bytes) := by
  have hpay : element.payloadEnum = none := payloadEnum_eq_none (Or.inr (Or.inl h.2.1))
  have hagree := agree_logical element h.1 false (ctx.element n index) 0
    (input.child (elementPlace element ⟨index, hlt⟩)) v fun _ => rfl
  rw [logicalTag_flag hpay] at hagree
  have hcommit : commitElement element n index (element.commitLogical v false) input = _ :=
    commitElement_eq ⟨index, hlt⟩ _ input
  rw [setElement_eq ctx input hlt v]
  rcases twoPass_cases (commitElement element n index (element.commitLogical v false))
    (hcommit ▸ (agree_childFailure element (ctx.element n index) .capacityExceeded hagree).map _)
    with he | ⟨hok, out, hout, hrun⟩
  · exact Or.inl he
  · refine Or.inr ⟨out, hrun, fun hd hvalid => ?_⟩
    obtain ⟨new, hnew, hrep⟩ := assign_spec h.1 hd hpay hvalid (childFailure_eq_ok.mp hok)
    rw [hcommit, hnew] at hout
    exact ⟨new, hrep, (Option.some.inj hout).symm⟩

end Element

section Record
variable {ir : StructIr} {fields : Fin ir.arity → Category} {i : Fin ir.arity}
  {b : Bytes (struct ir fields).wire.size} {x : Bytes (fields i).wire.size}

/-- No field but a tag sibling holds a tag. -/
theorem tagAt_put (hlink : ir.Linked fields) (hi : (fields i).tagEnum = none) (j : Fin ir.arity) :
    tagAt ir fields ((fieldPlace ir fields i).put b x) j = tagAt ir fields b j := by
  cases ht : ir.tagField j with
  | none => rw [tagAt_of_none ht, tagAt_of_none ht]
  | some t =>
    have hti : t ≠ i := by
      rintro rfl
      have hsome := hlink.tagEnum_isSome ht
      rw [hi] at hsome
      cases hsome
    rw [tagAt_of_link ht, tagAt_of_link ht,
      Cell.get_put_of_disjoint (fieldPlace_disjoint ir fields hti)]

theorem valid_put_field (hlink : ir.Linked fields) (hi : (fields i).tagEnum = none) {tag : ℕ}
    (hb : (struct ir fields).Valid 0 b) (htag : tagAt ir fields b i = some tag)
    (hx : (fields i).Valid tag x) :
    (struct ir fields).Valid 0 ((fieldPlace ir fields i).put b x) := by
  intro j
  rw [tagAt_put hlink hi]
  by_cases hji : j = i
  · subst hji
    rw [Cell.get_put]
    exact ⟨tag, htag, hx⟩
  · rw [Cell.get_put_of_disjoint (fieldPlace_disjoint ir fields hji)]
    exact hb j

end Record

/-- A call on a valid handle returns an error and has written nothing, or succeeds and, when
the tags are distinct, leaves valid storage. -/
theorem Operation.perform_cases {c : Category} (op : Operation c) (h : c.Accepted) (ctx : Context)
    {tag : ℕ} (hfree : c.payloadEnum = none → tag = 0) {input : Input c.wire}
    (hvalid : c.Valid tag input.bytes) :
    (∃ e, op.perform ctx tag input = some (.error e, input)) ∨
    ∃ out, op.perform ctx tag input = some (.ok (), out) ∧
      (c.DistinctTags → c.Valid tag out.bytes) := by
  have assign {c : Category} (h : c.Accepted) (hpay : c.payloadEnum = none)
      {input : Input c.wire} (hvalid : c.Valid 0 input.bytes) (v : c.Logical) :
      (∃ e, twoPass input (c.preflightLogical false ctx 0 input v) (c.commitLogical v false) =
        some (.error e, input)) ∨
      ∃ out, twoPass input (c.preflightLogical false ctx 0 input v) (c.commitLogical v false) =
        some (.ok (), out) ∧ (c.DistinctTags → c.Valid 0 out.bytes) := by
    rcases assign_cases h hpay ctx input v with he | ⟨out, hrun, hrep⟩
    · exact Or.inl he
    · exact Or.inr ⟨out, hrun, fun hd => (hrep hd hvalid).valid⟩
  have patch {c : Category} {ctx : Context} {tag : ℕ} (h : c.Accepted)
      (hfree : c.payloadEnum = none → tag = 0) {input : Input c.wire}
      (hvalid : c.Valid tag input.bytes) (p : c.Patch) (htag : c.patchTag p = tag) :
      (∃ e, twoPass input (c.preflightPatch false ctx tag input p) (c.commitPatch p false) =
        some (.error e, input)) ∨
      ∃ out, twoPass input (c.preflightPatch false ctx tag input p) (c.commitPatch p false) =
        some (.ok (), out) ∧ (c.DistinctTags → c.Valid tag out.bytes) := by
    rcases patch_cases h ctx hfree input p htag with he | ⟨out, hrun, hmerge⟩
    · exact Or.inl he
    · refine Or.inr ⟨out, hrun, fun hd => ?_⟩
      obtain ⟨v, hv⟩ := (c.valid_iff tag input).mp hvalid
      obtain ⟨w, -, hw⟩ := hmerge hd v hv
      exact hw.valid
  cases op with
  | setScalar v | setBool v | setEnum v | setOptional v =>
    obtain rfl := hfree rfl
    exact assign h rfl hvalid v
  | @setString s v =>
    rcases twoPass_cases (fun input => s.commit input v)
      (agree_string s (.ofField ctx.schema ctx.field) input v) with he | ⟨hok, out, hout, hrun⟩
    · exact Or.inl he
    · obtain ⟨out', hout', hdecode⟩ := s.commit_spec input (StringIr.preflight_eq_ok.mp hok)
      obtain rfl := Option.some.inj (hout.symm.trans hout')
      exact Or.inr ⟨out, hrun, fun _ => (s.valid_iff out).mpr ⟨v, hdecode⟩⟩
  | clearString => exact Or.inr ⟨_, rfl, fun _ => StringIr.valid_zero h⟩
  | @setBytes n source =>
    by_cases hlen : source.length = n
    · refine Or.inr ⟨input.overwrite ⟨source, hlen⟩, ?_, fun _ => trivial⟩
      simp [perform, BytesMut.set, FixedBytes.preflight, twoPass, hlen]
    · exact Or.inl ⟨ctx.leaf .arrayLengthMismatch,
        by simp [perform, BytesMut.set, FixedBytes.preflight, twoPass, hlen]⟩
  | @setElement element n index v =>
    obtain rfl := hfree rfl
    by_cases hlt : index < n
    · rcases setElement_cases ctx input hlt v h with he | ⟨out, hrun, hput⟩
      · exact Or.inl he
      · refine Or.inr ⟨out, hrun, fun hd => ?_⟩
        obtain ⟨new, hrep, rfl⟩ := hput hd (hvalid ⟨index, hlt⟩)
        exact valid_put_element hvalid hrep.valid
    · exact Or.inl ⟨_, if_neg hlt⟩
  | @copyElements element n values =>
    obtain rfl := hfree rfl
    by_cases hlen : values.length = n
    · rw [perform, copyElements_eq hlen]
      exact assign h rfl hvalid _
    · exact Or.inl ⟨_, dif_neg hlen⟩
  | copyFrom path p =>
    have hpay : c.payloadEnum = none := payloadEnum_eq_none (Or.inl (isPayload_of_isPath path))
    obtain rfl := hfree hpay
    rw [perform, copyFrom_eq hvalid]
    exact patch h (fun _ => rfl) hvalid p (patchTag_eq_zero hpay p)
  | @copyPayload ir payload p =>
    by_cases htag : (tagged ir payload).patchTag p = tag
    · rw [perform, TaggedMut.copyFrom, if_neg (not_not_intro htag)]
      exact patch h hfree hvalid p htag
    · exact Or.inl ⟨_, if_pos htag⟩
  | clear gate =>
    exact Or.inr ⟨input.clearAll, rfl, fun _ => valid_zero_of_clearState rfl h gate⟩

/-- A call that fails has written nothing, whatever it was made on. -/
theorem Operation.perform_error {c : Category} (op : Operation c) {ctx : Context} {tag : ℕ}
    {input out : Input c.wire} {e : SchemaError}
    (h : op.perform ctx tag input = some (.error e, out)) : out = input := by
  cases op with
  | setScalar | setBool | setEnum | setString | setBytes | setOptional | copyFrom =>
    rw [perform] at h
    exact twoPass_error h
  | clearString => cases h
  | setElement index v =>
    rw [perform, ArrayMut.set] at h
    split_ifs at h
    · exact twoPass_error h
    · cases h
      rfl
  | copyElements values =>
    rw [perform, ArrayMut.copyFrom] at h
    split_ifs at h
    · exact twoPass_error h
    · cases h
      rfl
  | copyPayload p =>
    rw [perform, TaggedMut.copyFrom] at h
    split_ifs at h
    · cases h
      rfl
    · exact twoPass_error h
  | clear gate => cases h

end Category

end ZeroSchema
