import ZeroSchema.Mutation.Run
import ZeroSchema.Mutation.Unread

/-! Storages that hold one value. Every call on them has the same result and leaves storages that
hold one value again, so a run cannot tell them apart. -/
namespace ZeroSchema
open Storage Control
variable [Target]

namespace Category

/-- Two storages that hold the same value. -/
def Twins (c : Category) (tag : ℕ) (s s' : Input c.wire) : Prop :=
  ∃ v, c.Represents tag s.bytes v ∧ c.Represents tag s'.bytes v

section Twins
variable {c : Category} {tag : ℕ} {s s' : Input c.wire}

theorem Twins.valid (h : c.Twins tag s s') : c.Valid tag s.bytes ∧ c.Valid tag s'.bytes := by
  obtain ⟨v, hv, hv'⟩ := h
  exact ⟨hv.valid, hv'.valid⟩

theorem Twins.logicalEq (h : c.Twins tag s s') : c.LogicalEq tag s.bytes s'.bytes := by
  obtain ⟨v, hv, hv'⟩ := h
  exact logicalEq_of_represents hv hv'

/-- Valid bytes hold the value of every logically equal wire. -/
theorem LogicalEq.twins (hacc : c.Accepted) (h : c.LogicalEq tag s.bytes s'.bytes)
    (hvalid : c.Valid tag s.bytes) : c.Twins tag s s' := by
  obtain ⟨v, hv⟩ := (c.valid_iff tag s).mp hvalid
  exact ⟨v, hv, h.represents hacc hv⟩

end Twins

/-! ### Parts and wholes -/

section Record
variable {ir : StructIr} {fields : Fin ir.arity → Category} {i : Fin ir.arity}

theorem represents_put_field (hlink : ir.Linked fields) (hi : (fields i).tagEnum = none)
    {tag : ℕ} {b : Bytes (struct ir fields).wire.size} {v : (struct ir fields).Logical}
    {x : Bytes (fields i).wire.size} {w : (fields i).Logical}
    (hv : (struct ir fields).Represents 0 b v) (htag : tagAt ir fields b i = some tag)
    (hw : (fields i).Represents tag x w) :
    (struct ir fields).Represents 0 ((fieldPlace ir fields i).put b x) (Function.update v i w) := by
  intro j
  rw [tagAt_put hlink hi]
  by_cases hji : j = i
  · subst hji
    rw [Cell.get_put, Function.update_self]
    exact ⟨tag, htag, hw⟩
  · rw [Cell.get_put_of_disjoint (fieldPlace_disjoint ir fields hji), Function.update_of_ne hji]
    exact hv j

theorem Twins.field {s s' : Input (struct ir fields).wire} (h : (struct ir fields).Twins 0 s s')
    (i : Fin ir.arity) : ∃ tag, tagAt ir fields s.bytes i = some tag ∧
      tagAt ir fields s'.bytes i = some tag ∧
      (fields i).Twins tag (s.child (fieldPlace ir fields i)) (s'.child (fieldPlace ir fields i)) := by
  obtain ⟨v, hv, hv'⟩ := h
  obtain ⟨tag, htag, hvi⟩ := hv i
  obtain ⟨tag', htag', hvi'⟩ := hv' i
  have hsame := tagAt_unique hv hv' i
  obtain rfl : tag' = tag := Option.some.inj (htag'.symm.trans (hsame.trans htag))
  exact ⟨tag', htag, htag', v i, hvi, hvi'⟩

theorem Twins.put_field (hlink : ir.Linked fields) (hi : (fields i).tagEnum = none) {tag : ℕ}
    {s s' : Input (struct ir fields).wire} (h : (struct ir fields).Twins 0 s s')
    (htag : tagAt ir fields s.bytes i = some tag) {x x' : Input (fields i).wire}
    (hx : (fields i).Twins tag x x') :
    (struct ir fields).Twins 0 (s.put (fieldPlace ir fields i).toCell x.bytes)
      (s'.put (fieldPlace ir fields i).toCell x'.bytes) := by
  obtain ⟨v, hv, hv'⟩ := h
  obtain ⟨w, hw, hw'⟩ := hx
  have htag' : tagAt ir fields s'.bytes i = some tag := (tagAt_unique hv hv' i).trans htag
  exact ⟨Function.update v i w, represents_put_field hlink hi hv htag hw,
    represents_put_field hlink hi hv' htag' hw'⟩

end Record

section Element
variable {element : Category} {n : ℕ} {j : Fin n}

theorem represents_put_element {b : Bytes (array element n).wire.size}
    {v : (array element n).Logical} {x : Bytes element.wire.size} {w : element.Logical}
    (hv : (array element n).Represents 0 b v) (hw : element.Represents 0 x w) :
    (array element n).Represents 0 ((elementPlace element j).put b x) (Function.update v j w) := by
  intro k
  by_cases hkj : k = j
  · subst hkj
    rw [Cell.get_put, Function.update_self]
    exact hw
  · rw [Cell.get_put_of_disjoint (elementPlace_disjoint element hkj), Function.update_of_ne hkj]
    exact hv k

theorem Twins.put_element {s s' : Input (array element n).wire}
    (h : (array element n).Twins 0 s s') {x x' : Input element.wire}
    (hx : element.Twins 0 x x') :
    (array element n).Twins 0 (s.put (elementPlace element j).toCell x.bytes)
      (s'.put (elementPlace element j).toCell x'.bytes) := by
  obtain ⟨v, hv, hv'⟩ := h
  obtain ⟨w, hw, hw'⟩ := hx
  exact ⟨Function.update v j w, represents_put_element hv hw, represents_put_element hv' hw'⟩

end Element

/-! ### Calls -/

/-- Two calls end alike: with one result, and with storages that hold one value. -/
def Together (c : Category) (tag : ℕ) (answer answer' : Answer c.wire) : Prop :=
  ∃ result out out', answer = some (result, out) ∧ answer' = some (result, out') ∧
    c.Twins tag out out'

theorem twoPass_result {W : Layout} {s s' out out' : Input W} {preflight : Outcome SchemaError Unit}
    {commit commit' : Input W → Option (Input W)} {r r' : Except SchemaError Unit}
    (h : twoPass s preflight commit = some (r, out))
    (h' : twoPass s' preflight commit' = some (r', out')) : r' = r := by
  cases preflight with
  | ok u =>
    obtain ⟨_, -, h⟩ := Option.map_eq_some_iff.mp h
    obtain ⟨_, -, h'⟩ := Option.map_eq_some_iff.mp h'
    cases h
    cases h'
    rfl
  | err e =>
    cases h
    cases h'
    rfl
  | unreachable => cases h

/-- Calls that check alike end alike when what they write holds one value. -/
theorem together_twoPass {c : Category} {tag : ℕ} {s s' : Input c.wire} (h : c.Twins tag s s')
    {preflight preflight' : Outcome SchemaError Unit} (hpre : preflight' = preflight)
    {commit commit' : Input c.wire → Option (Input c.wire)} {P : Input c.wire → Prop}
    {P' : Input c.wire → Prop}
    (hrun : (∃ e, twoPass s preflight commit = some (.error e, s)) ∨
      ∃ out, twoPass s preflight commit = some (.ok (), out) ∧ P out)
    (hrun' : (∃ e, twoPass s' preflight' commit' = some (.error e, s')) ∨
      ∃ out, twoPass s' preflight' commit' = some (.ok (), out) ∧ P' out)
    (hout : ∀ out out', P out → P' out' → c.Twins tag out out') :
    c.Together tag (twoPass s preflight commit) (twoPass s' preflight' commit') := by
  subst hpre
  rcases hrun with ⟨e, he⟩ | ⟨out, hok, hp⟩
  · rcases hrun' with ⟨e', he'⟩ | ⟨out', hok', -⟩
    · have hresult := twoPass_result he he'
      exact ⟨.error e, s, s', he, hresult ▸ he', h⟩
    · cases twoPass_result he hok'
  · rcases hrun' with ⟨e', he'⟩ | ⟨out', hok', hp'⟩
    · cases twoPass_result hok he'
    · exact ⟨.ok (), out, out', hok, hok', hout out out' hp hp'⟩

theorem Twins.assign {c : Category} (hacc : c.Accepted) (hd : c.DistinctTags)
    (hpay : c.payloadEnum = none) (ctx : Context) {s s' : Input c.wire} (h : c.Twins 0 s s')
    (v : c.Logical) :
    c.Together 0 (twoPass s (c.preflightLogical false ctx 0 s v) (c.commitLogical v false))
      (twoPass s' (c.preflightLogical false ctx 0 s' v) (c.commitLogical v false)) := by
  have hstart : c.SameStart false 0 s.bytes s'.bytes := Or.inr h.logicalEq
  have hpre := preflightLogical_congr c hacc hd ctx 0 s s' v hstart
  apply together_twoPass h hpre (assign_cases hacc hpay ctx s v) (assign_cases hacc hpay ctx s' v)
  intro out out' hout hout'
  exact ⟨v, hout hd h.valid.1, hout' hd h.valid.2⟩

theorem Twins.patch {c : Category} (hacc : c.Accepted) (hd : c.DistinctTags) (ctx : Context)
    {tag : ℕ} (hfree : c.payloadEnum = none → tag = 0) {s s' : Input c.wire} (h : c.Twins tag s s')
    (p : c.Patch) (htag : c.patchTag p = tag) :
    c.Together tag (twoPass s (c.preflightPatch false ctx tag s p) (c.commitPatch p false))
      (twoPass s' (c.preflightPatch false ctx tag s' p) (c.commitPatch p false)) := by
  have hstart : c.SameStart false tag s.bytes s'.bytes := Or.inr h.logicalEq
  have hpre := preflightPatch_congr c hacc hd ctx tag s s' p hstart
  apply together_twoPass h hpre (patch_cases hacc ctx hfree s p htag)
    (patch_cases hacc ctx hfree s' p htag)
  intro out out' hout hout'
  obtain ⟨v, hv, hv'⟩ := h
  obtain ⟨w, hmerge, hw⟩ := hout hd v hv
  obtain ⟨w', hmerge', hw'⟩ := hout' hd v hv'
  obtain rfl := Option.some.inj (hmerge.symm.trans hmerge')
  exact ⟨w, hw, hw'⟩

/-- Every call on storages of one value ends alike. -/
theorem Operation.perform_together {c : Category} (op : Operation c) (hacc : c.Accepted)
    (hd : c.DistinctTags) (ctx : Context) {tag : ℕ} (hfree : c.payloadEnum = none → tag = 0)
    {s s' : Input c.wire} (h : c.Twins tag s s') :
    c.Together tag (op.perform ctx tag s) (op.perform ctx tag s') := by
  cases op with
  | setScalar v | setBool v | setEnum v | setOptional v =>
    obtain rfl := hfree rfl
    rw [perform, perform]
    exact h.assign hacc hd rfl ctx v
  | @setString t v =>
    rw [perform, perform, StringMut.set, StringMut.set, StringIr.preflight_eq, StringIr.preflight_eq]
    cases hcheck : t.check v with
    | ok u =>
      have hfits := StringIr.check_eq_ok.mp hcheck
      obtain ⟨out, hout, hv⟩ := t.commit_spec s hfits
      obtain ⟨out', hout', hv'⟩ := t.commit_spec s' hfits
      refine ⟨.ok (), out, out', ?_, ?_, v, hv, hv'⟩
      · simp [twoPass, Context.onMutation, hout]
      · simp [twoPass, Context.onMutation, hout']
    | error e => exact ⟨_, s, s', rfl, rfl, h⟩
  | @clearString t =>
    obtain ⟨v, hv⟩ := (t.valid_iff s.clearAll).mp (StringIr.valid_zero hacc)
    exact ⟨.ok (), s.clearAll, s'.clearAll, rfl, rfl, v, hv, hv⟩
  | @setBytes n source =>
    by_cases hlen : source.length = n
    · refine ⟨.ok (), s.overwrite ⟨source, hlen⟩, s'.overwrite ⟨source, hlen⟩, ?_, ?_, ?_⟩
      · simp [perform, BytesMut.set, FixedBytes.preflight, twoPass, hlen]
      · simp [perform, BytesMut.set, FixedBytes.preflight, twoPass, hlen]
      · exact ⟨⟨source, hlen⟩, rfl, rfl⟩
    · refine ⟨.error (ctx.leaf .arrayLengthMismatch), s, s', ?_, ?_, h⟩
      · simp [perform, BytesMut.set, FixedBytes.preflight, twoPass, hlen]
      · simp [perform, BytesMut.set, FixedBytes.preflight, twoPass, hlen]
  | @setElement element n index v =>
    obtain rfl := hfree rfl
    rw [perform, perform]
    by_cases hlt : index < n
    · have hstart : element.SameStart false 0
          (s.child (elementPlace element ⟨index, hlt⟩)).bytes
          (s'.child (elementPlace element ⟨index, hlt⟩)).bytes :=
        Or.inr (h.logicalEq ⟨index, hlt⟩)
      have hpre := preflightLogical_congr element hacc.1 hd (ctx.element n index) 0 _ _ v hstart
      have hrun := setElement_cases ctx s hlt v hacc
      have hrun' := setElement_cases ctx s' hlt v hacc
      rw [setElement_eq ctx _ hlt v] at hrun hrun'
      rw [setElement_eq ctx s hlt v, setElement_eq ctx s' hlt v]
      apply together_twoPass h (by rw [hpre]) hrun hrun'
      intro out out' hout hout'
      obtain ⟨new, hnew, rfl⟩ := hout hd (h.valid.1 ⟨index, hlt⟩)
      obtain ⟨new', hnew', rfl⟩ := hout' hd (h.valid.2 ⟨index, hlt⟩)
      exact h.put_element ⟨v, hnew, hnew'⟩
    · exact ⟨_, s, s', if_neg hlt, if_neg hlt, h⟩
  | @copyElements element n values =>
    obtain rfl := hfree rfl
    rw [perform, perform]
    by_cases hlen : values.length = n
    · rw [copyElements_eq hlen, copyElements_eq hlen]
      exact h.assign hacc hd rfl ctx _
    · exact ⟨_, s, s', dif_neg hlen, dif_neg hlen, h⟩
  | copyFrom path p =>
    have hpay : c.payloadEnum = none := payloadEnum_eq_none (Or.inl (isPayload_of_isPath path))
    obtain rfl := hfree hpay
    rw [perform, perform, copyFrom_eq h.valid.1, copyFrom_eq h.valid.2]
    exact h.patch hacc hd ctx hfree p (patchTag_eq_zero hpay p)
  | @copyPayload ir payload p =>
    rw [perform, perform, TaggedMut.copyFrom, TaggedMut.copyFrom]
    by_cases htag : (tagged ir payload).patchTag p = tag
    · rw [if_neg (not_not_intro htag), if_neg (not_not_intro htag)]
      exact h.patch hacc hd .root hfree p htag
    · rw [if_pos htag, if_pos htag]
      exact ⟨_, s, s', rfl, rfl, h⟩
  | @clear ir fields gate =>
    obtain rfl := hfree rfl
    have hzero := valid_zero_of_clearState rfl hacc gate
    obtain ⟨v, hv⟩ := ((struct ir fields).valid_iff 0 s.clearAll).mp hzero
    exact ⟨.ok (), s.clearAll, s'.clearAll, rfl, rfl, v, hv, hv⟩

/-! ### Runs -/

/-- What is done alike through the handles of two parts is done alike to the wholes. -/
theorem session_together {W F : Layout} {s s' : Input W} (p : Place W F)
    {prove : Input F → Outcome SchemaError Unit}
    {run : Input F → Option (Trace (Input F) (Except SchemaError Unit))}
    {R : Input F → Input F → Prop} {R' : Input W → Input W → Prop}
    (hprove : prove (s.child p) = .ok ()) (hprove' : prove (s'.child p) = .ok ())
    (hrun : ∃ trace trace', run (s.child p) = some trace ∧ run (s'.child p) = some trace' ∧
      Trace.Match R trace trace')
    (hput : ∀ x x', R x x' → R' (s.put p.toCell x.bytes) (s'.put p.toCell x'.bytes)) :
    ∃ trace trace', session s p.offset prove run = some trace ∧
      session s' p.offset prove run = some trace' ∧ Trace.Match R' trace trace' := by
  obtain ⟨trace, trace', hrun, hrun', hmatch⟩ := hrun
  rw [session_place s p hprove, session_place s' p hprove', hrun, hrun']
  exact ⟨_, _, rfl, rfl, hmatch.within hput⟩

/-- A program runs alike on storages of one value. -/
theorem Mutation.run_together {c : Category} (m : Mutation c) (hacc : c.Accepted)
    (hd : c.DistinctTags) (ctx : Context) {tag : ℕ} (hfree : c.payloadEnum = none → tag = 0)
    {s s' : Input c.wire} (h : c.Twins tag s s') :
    ∃ trace trace', m.run ctx tag s = some trace ∧ m.run ctx tag s' = some trace' ∧
      Trace.Match (c.Twins tag) trace trace' := by
  induction m generalizing ctx tag with
  | call op =>
    obtain ⟨result, out, out', hrun, hrun', hout⟩ := op.perform_together hacc hd ctx hfree h
    rw [run, run, hrun, hrun']
    exact ⟨_, _, rfl, rfl, .cons ⟨rfl, hout⟩ .nil⟩
  | skip => exact ⟨[], [], rfl, rfl, .nil⟩
  | seq first rest ihf ihr =>
    obtain ⟨done, done', hdone, hdone', hmatch⟩ := ihf hacc hd ctx hfree h
    obtain ⟨more, more', hmore, hmore', hmatch'⟩ := ihr hacc hd ctx hfree (hmatch.final h)
    refine ⟨done ++ more, done' ++ more', ?_, ?_, hmatch.append hmatch'⟩
    · simp [run, hdone, hmore]
    · simp [run, hdone', hmore']
  | @field ir fields i hi m ih =>
    obtain rfl := hfree rfl
    obtain ⟨tag, htag, htag', hfield⟩ := h.field i
    rw [run, run, siblingTag_proved, siblingTag_proved, htag, htag']
    apply session_together (fieldPlace ir fields i)
    · exact (prove_eq_ok _ _ _ _).mpr hfield.valid.1
    · exact (prove_eq_ok _ _ _ _).mpr hfield.valid.2
    · exact ih (hacc.1 i).1 (hd i) _ (tagAt_eq_zero hacc.2.1 htag) hfield
    · intro x x' hx
      exact h.put_field hacc.2.1 hi htag hx
  | @element element n index m ih =>
    obtain rfl := hfree rfl
    rw [run, run]
    by_cases hlt : index < n
    · obtain ⟨v, hv, hv'⟩ := h
      have helement : element.Twins 0 (s.child (elementPlace element ⟨index, hlt⟩))
          (s'.child (elementPlace element ⟨index, hlt⟩)) :=
        ⟨v ⟨index, hlt⟩, hv ⟨index, hlt⟩, hv' ⟨index, hlt⟩⟩
      rw [if_pos hlt, if_pos hlt, checkedElementOffset_eq s ⟨index, hlt⟩]
      apply session_together (elementPlace element ⟨index, hlt⟩)
      · exact (prove_eq_ok _ _ _ _).mpr helement.valid.1
      · exact (prove_eq_ok _ _ _ _).mpr helement.valid.2
      · exact ih hacc.1 hd _ (fun _ => rfl) helement
      · intro x x' hx
        exact Twins.put_element ⟨v, hv, hv'⟩ hx
    · rw [if_neg hlt, if_neg hlt]
      exact ⟨[], [], rfl, rfl, .nil⟩
  | @present align inner m ih =>
    obtain rfl := hfree rfl
    obtain ⟨v, hv, hv'⟩ := h
    rw [run, run]
    cases v with
    | none =>
      rw [if_pos (Input.isAllZero_eq_true.mpr hv), if_pos (Input.isAllZero_eq_true.mpr hv')]
      exact ⟨[], [], rfl, rfl, .nil⟩
    | some v =>
      have hvalue : inner.Twins 0 (s.child (presentPlace align inner))
          (s'.child (presentPlace align inner)) := ⟨v, hv.2, hv'.2⟩
      rw [if_neg (mt Input.isAllZero_eq_true.mp hv.1), if_neg (mt Input.isAllZero_eq_true.mp hv'.1)]
      apply session_together (presentPlace align inner)
      · exact (prove_eq_ok _ _ _ _).mpr hvalue.valid.1
      · exact (prove_eq_ok _ _ _ _).mpr hvalue.valid.2
      · exact ih hacc.1 hd _ (fun _ => rfl) hvalue
      · rintro x x' ⟨w, hw, hw'⟩
        exact ⟨some w, represents_put_present hacc hw, represents_put_present hacc hw'⟩
  | @variant ir payload k m ih =>
    rw [run, run]
    by_cases hk : tag = ir.tag k
    · obtain ⟨⟨j, v⟩, hv, hv'⟩ := h
      have hselect : ir.select tag = some j := hv.1
      obtain rfl : j = k := by
        rw [hk, ir.select_tag hd.1] at hselect
        exact (Option.some.inj hselect).symm
      have hpayload : (payload j).Twins 0 (s.child (payloadPlace ir payload j))
          (s'.child (payloadPlace ir payload j)) := ⟨v, hv.2, hv'.2⟩
      rw [if_pos hk, if_pos hk]
      apply session_together (payloadPlace ir payload j)
      · exact (prove_eq_ok _ _ _ _).mpr hpayload.valid.1
      · exact (prove_eq_ok _ _ _ _).mpr hpayload.valid.2
      · exact ih (hacc.1 j).1 (hd.2 j) _ (fun _ => rfl) hpayload
      · rintro x x' ⟨w, hw, hw'⟩
        refine ⟨⟨j, w⟩, ⟨hselect, ?_⟩, hselect, ?_⟩
        · rwa [Input.bytes_put, Cell.get_put]
        · rwa [Input.bytes_put, Cell.get_put]
    · rw [if_neg hk, if_neg hk]
      exact ⟨[], [], rfl, rfl, .nil⟩

end Category

end ZeroSchema
