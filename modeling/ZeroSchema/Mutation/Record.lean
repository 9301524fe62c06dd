import ZeroSchema.Schema.Proof

/-! The steps that both mutation engines share: committing one field of a record, with the
payload before the tag that selects it, and committing one element of an array. -/
namespace ZeroSchema
open Storage Control

namespace Category

/-- The tag a logical tag sibling holds. -/
def storedTag : (c : Category) → c.Logical → ℕ
  | tagSibling _, v => Fin.val v
  | _, _ => 0

/-- The tag of the variant that a logical payload is; other categories need no tag. -/
def logicalTag : (c : Category) → c.Logical → ℕ
  | tagged ir _, v => (ir.tag v.1 : ℕ)
  | _, _ => 0

theorem logicalTag_eq_zero {c : Category} (h : c.payloadEnum = none) (v : c.Logical) :
    c.logicalTag v = 0 := by
  cases c with
  | tagged ir payload => cases h
  | _ => rfl

/-- Without a tag, what a commit initializes is up to its caller. -/
theorem logicalTag_flag {c : Category} (h : c.payloadEnum = none) (initializing : Bool)
    (v : c.Logical) : (initializing || decide (0 ≠ c.logicalTag v)) = initializing := by
  simp [logicalTag_eq_zero h]

theorem logicalTag_lt {c : Category} {e : EnumIr} (h : c.payloadEnum = some e) (v : c.Logical) :
    c.logicalTag v < e.arity := by
  cases c with
  | tagged ir payload =>
    obtain rfl := Option.some.inj h
    exact (ir.tag v.1).isLt
  | _ => cases h

/-- An enclosing schema keeps only that its child failed. -/
def childFailure (c : Category) (ctx : Context) (kind : ErrorKind) (x : Outcome SchemaError Unit) :
    Outcome SchemaError Unit :=
  if c.ownsErrors then x.mapErr fun _ => ctx.leaf kind else x

@[simp] theorem childFailure_eq_ok {c : Category} {ctx : Context} {kind : ErrorKind}
    {x : Outcome SchemaError Unit} : c.childFailure ctx kind x = .ok () ↔ x = .ok () := by
  unfold childFailure
  split_ifs <;> simp

variable [Target]

/-- The generated tag store. -/
def storeTag : (c : Category) → ℕ → Input c.wire → Option (Input c.wire)
  | tagSibling ir, target, input =>
    if h : target < ir.arity then some (input.overwrite (ir.commit ⟨target, h⟩)) else none
  | _, _, _ => none

/-- Both ranges are checked before the payload is committed; the tag is stored last. -/
def commitPayloadBeforeTagWith {W T P : Layout} (root : Input W) (tagOffset payloadOffset : ℕ)
    (commitPayload : Input P → Option (Input P)) (store : Input T → Option (Input T)) :
    Option (Input W) := do
  let _ ← (checkedRange W.size tagOffset T.size).toOption
  let _ ← (checkedRange W.size payloadOffset P.size).toOption
  let root ← root.subrangeMut P payloadOffset commitPayload
  root.subrangeMut T tagOffset store

section Record
variable (ir : StructIr) (fields : Fin ir.arity → Category)

/-- The current tag of a payload, which a preflight has validated. -/
def currentTag (input : Input (struct ir fields).wire) (t : Fin ir.arity) : Option ℕ := do
  let selected ← (selectField ir fields input t).toOption
  (fields t).loadTag selected.bytes

/-- The tag that preflight and commit of a field start from; initializing looks at none. -/
def Current (initializing : Bool) (b : Bytes (struct ir fields).wire.size) (i : Fin ir.arity)
    (current : ℕ) : Prop :=
  if initializing then current = 0 else tagAt ir fields b i = some current

/-- Proves and reads the tag that a preflight starts from. -/
def provedCurrent (initializing : Bool) (input : Input (struct ir fields).wire)
    (t : Fin ir.arity) : Outcome SchemaError ℕ :=
  if initializing then .ok 0 else provedTag ir fields (fun i => prove (fields i)) input t

/-- Commits one field. A payload of another variant is initialized before its tag is stored;
a tag sibling has no commit of its own. -/
def commitField (initializing : Bool) (i : Fin ir.arity) (target : ℕ)
    (commit : Bool → Input (fields i).wire → Option (Input (fields i).wire))
    (input : Input (struct ir fields).wire) : Option (Input (struct ir fields).wire) :=
  if (fields i).tagEnum.isSome then some input
  else
    match ir.tagField i with
    | none =>
      input.subrangeMut (fields i).wire (fieldPlace ir fields i).offset (commit initializing)
    | some t =>
      if initializing then
        commitPayloadBeforeTagWith input (fieldPlace ir fields t).offset
          (fieldPlace ir fields i).offset (commit true) ((fields t).storeTag target)
      else do
        let current ← currentTag ir fields input t
        if target = current then
          input.subrangeMut (fields i).wire (fieldPlace ir fields i).offset (commit false)
        else
          commitPayloadBeforeTagWith input (fieldPlace ir fields t).offset
            (fieldPlace ir fields i).offset (commit true) ((fields t).storeTag target)

/-- The bytes that committing a field may write: its own and its tag's. -/
def fieldWrites (i : Fin ir.arity) : Set (Option ℕ) :=
  if (fields i).tagEnum.isSome then ∅
  else Input.covered (fieldPlace ir fields i).toCell ∪
    match ir.tagField i with
    | none => ∅
    | some t => Input.covered (fieldPlace ir fields t).toCell

/-- What committing a field depends on besides its value. -/
def fieldReads (i : Fin ir.arity) : Set (Option ℕ) := insert none (fieldWrites ir fields i)

end Record

/-- Commits one element. -/
def commitElement (element : Category) (n : ℕ) (j : ℕ)
    (commit : Input element.wire → Option (Input element.wire))
    (input : Input (array element n).wire) : Option (Input (array element n).wire) := do
  let offset ← (checkedElementOffset j element.wire.size).toOption
  input.subrangeMut element.wire offset commit

theorem commitElement_eq {element : Category} {n : ℕ} (j : Fin n)
    (commit : Input element.wire → Option (Input element.wire))
    (input : Input (array element n).wire) :
    commitElement element n j commit input = (commit (input.child (elementPlace element j))).map
      fun child => input.put (elementPlace element j).toCell child.bytes := by
  rw [commitElement, checkedElementOffset_eq input j, ← Input.subrangeMut_place]
  rfl

theorem commitPayloadBeforeTagWith_eq {W T P : Layout} (root : Input W) (tag : Place W T)
    (payload : Place W P) {commitPayload : Input P → Option (Input P)}
    {store : Input T → Option (Input T)} {child : Input P}
    (h : commitPayload (root.child payload) = some child) :
    commitPayloadBeforeTagWith root tag.offset payload.offset commitPayload store =
      (store ((root.put payload.toCell child.bytes).child tag)).map fun stored =>
        (root.put payload.toCell child.bytes).put tag.toCell stored.bytes := by
  rw [commitPayloadBeforeTagWith, root.checkedRange_cell tag.toCell,
    root.checkedRange_cell payload.toCell, root.subrangeMut_place, h]
  exact Input.subrangeMut_place _ tag store

section Record
variable {ir : StructIr} {fields : Fin ir.arity → Category}

theorem represents_of_loadTag {c : Category} {b : Bytes c.wire.size} {v : c.Logical}
    (hc : c.tagEnum.isSome) (h : c.loadTag b = some (c.storedTag v)) : c.Represents 0 b v := by
  cases c with
  | tagSibling ir =>
    obtain ⟨u, hu, huv⟩ := Option.map_eq_some_iff.mp h
    exact hu.trans (congrArg some (Fin.ext huv))
  | _ => cases hc

/-- A stored tag is read back. -/
theorem storeTag_spec {c : Category} {e : EnumIr} (hc : c.tagEnum = some e) {target : ℕ}
    (h : target < e.arity) (input : Input c.wire) :
    ∃ stored, c.storeTag target input = some stored ∧ c.loadTag stored.bytes = some target := by
  cases c with
  | tagSibling ir =>
    obtain rfl := Option.some.inj hc
    refine ⟨_, dif_pos h, Option.map_eq_some_iff.mpr ⟨⟨target, h⟩, ?_, rfl⟩⟩
    exact EnumIr.load_commit _
  | _ => cases hc

/-- Fields other than the tag siblings never share a byte or a tag. -/
theorem fieldReads_disjoint (hlink : ir.Linked fields) {i j : Fin ir.arity} (hij : i ≠ j) :
    Disjoint (fieldReads ir fields i) (fieldWrites ir fields j) := by
  have key (k l : Fin ir.arity) (h : k ≠ l) :
      Disjoint (Input.covered (fieldPlace ir fields k).toCell)
        (Input.covered (fieldPlace ir fields l).toCell) :=
    Input.covered_disjoint (fieldPlace_disjoint ir fields h)
  have hnone : none ∉ fieldWrites ir fields j := by
    simp only [fieldWrites]
    split_ifs
    · exact Set.notMem_empty _
    · cases ir.tagField j <;> simp [Input.covered]
  refine Set.disjoint_insert_left.mpr ⟨hnone, ?_⟩
  simp only [fieldWrites]
  split_ifs with hi hj hj
  · exact Set.disjoint_empty _
  · exact Set.empty_disjoint _
  · exact Set.disjoint_empty _
  · refine Set.disjoint_union_left.mpr ⟨?_, ?_⟩
    · refine Set.disjoint_union_right.mpr ⟨key i j hij, ?_⟩
      cases ht : ir.tagField j with
      | none => exact Set.disjoint_empty _
      | some t => exact key i t fun h => hi (h ▸ hlink.tagEnum_isSome ht)
    · cases hs : ir.tagField i with
      | none => exact Set.empty_disjoint _
      | some s =>
        refine Set.disjoint_union_right.mpr ⟨key s j fun h => hj (h ▸ hlink.tagEnum_isSome hs), ?_⟩
        cases ht : ir.tagField j with
        | none => exact Set.disjoint_empty _
        | some t => exact key s t fun h => hij (hlink.unique i j t (h ▸ hs) ht)

variable {s s' : Input (struct ir fields).wire} {i : Fin ir.arity}

theorem child_field_congr (hi : (fields i).tagEnum = none)
    (h : AgreeOn Input.view (fieldReads ir fields i) s s') :
    s'.child (fieldPlace ir fields i) = s.child (fieldPlace ir fields i) := by
  refine Input.child_congr (h.mono (Set.insert_subset_insert ?_))
  rw [fieldWrites, hi]
  exact Set.subset_union_left

theorem tagAt_congr (hi : (fields i).tagEnum = none)
    (h : AgreeOn Input.view (fieldReads ir fields i) s s') :
    tagAt ir fields s'.bytes i = tagAt ir fields s.bytes i := by
  cases ht : ir.tagField i with
  | none => rw [tagAt_of_none ht, tagAt_of_none ht]
  | some t =>
    have hget : (fieldPlace ir fields t).get s'.bytes = (fieldPlace ir fields t).get s.bytes := by
      refine Input.get_congr (h.mono ((Set.subset_insert _ _).trans' ?_))
      rw [fieldWrites, hi, ht]
      exact Set.subset_union_right
    rw [tagAt_of_link ht, tagAt_of_link ht, hget]

/-- Where a destination needs to be valid it is, so every field has a tag to start from. -/
theorem exists_current (hlink : ir.Linked fields) {initializing : Bool} {tag : ℕ}
    {b : Bytes (struct ir fields).wire.size}
    (h : initializing = true ∨ (struct ir fields).Valid tag b) (i : Fin ir.arity) :
    ∃ current, Current ir fields initializing b i current ∧
      ((fields i).payloadEnum = none → current = 0) ∧
      (initializing = true ∨ (fields i).Valid current ((fieldPlace ir fields i).get b)) := by
  cases initializing with
  | true => exact ⟨0, rfl, fun _ => rfl, Or.inl rfl⟩
  | false =>
    obtain ⟨current, hcurrent, hvalid⟩ := h.resolve_left Bool.false_ne_true i
    refine ⟨current, hcurrent, fun hfree => ?_, Or.inr hvalid⟩
    rw [tagAt_of_none (hlink.tagField_eq_none hfree)] at hcurrent
    exact (Option.some.inj hcurrent).symm

theorem Current.congr {initializing : Bool} {current : ℕ}
    {b b' : Bytes (struct ir fields).wire.size} (htag : tagAt ir fields b' i = tagAt ir fields b i)
    (h : Current ir fields initializing b i current) :
    Current ir fields initializing b' i current := by
  rwa [Current, htag]

theorem Current.eq_zero {initializing : Bool} {current : ℕ}
    {b : Bytes (struct ir fields).wire.size} (hlink : ir.Linked fields)
    (h : Current ir fields initializing b i current) (hi : (fields i).payloadEnum = none) :
    current = 0 := by
  cases initializing with
  | true => exact h
  | false =>
    have hnow : tagAt ir fields b i = some current := h
    rw [tagAt_of_none (hlink.tagField_eq_none hi)] at hnow
    exact (Option.some.inj hnow).symm

theorem provedCurrent_eq_ok {initializing : Bool} {t : Fin ir.arity} {current : ℕ}
    (ht : ir.tagField i = some t) : provedCurrent ir fields initializing s t = .ok current ↔
      Current ir fields initializing s.bytes i current := by
  cases initializing with
  | true => simp [provedCurrent, Current, eq_comm]
  | false =>
    simp only [provedCurrent, Current, Bool.false_eq_true, if_false, tagAt_of_link ht]
    exact provedTag_eq_ok fun ctx tag input => prove_eq_ok (fields t) ctx tag input

/-- The record loop. Passes that meet their fields' postconditions from the initial fields
meet all of them together at the end. -/
theorem foldEach_fields (hlink : ir.Linked fields)
    {step : Input (struct ir fields).wire → Fin ir.arity → Option (Input (struct ir fields).wire)}
    (post : (i : Fin ir.arity) → Option ℕ → Bytes (fields i).wire.size → Prop)
    (hsibling : ∀ i, (fields i).tagEnum.isSome → ∀ t, step t i = some t)
    (hstep : ∀ i, (fields i).tagEnum = none → ∀ t : Input (struct ir fields).wire,
      t.child (fieldPlace ir fields i) = s.child (fieldPlace ir fields i) →
      tagAt ir fields t.bytes i = tagAt ir fields s.bytes i →
      ∃ t', step t i = some t' ∧
        post i (tagAt ir fields t'.bytes i) ((fieldPlace ir fields i).get t'.bytes) ∧
        AgreeOn Input.view (fieldWrites ir fields i)ᶜ t t') :
    ∃ s', foldEach ir.arity step s = some s' ∧ ∀ i, (fields i).tagEnum = none →
      post i (tagAt ir fields s'.bytes i) ((fieldPlace ir fields i).get s'.bytes) := by
  let done (i : Fin ir.arity) (t : Input (struct ir fields).wire) : Prop :=
    (fields i).tagEnum = none →
      post i (tagAt ir fields t.bytes i) ((fieldPlace ir fields i).get t.bytes)
  have hdone (i : Fin ir.arity) (t t' : Input (struct ir fields).wire)
      (h : AgreeOn Input.view (fieldReads ir fields i) t t') (ht : done i t) : done i t' := by
    intro hi
    have hchild := congrArg Input.bytes (child_field_congr hi h)
    simp only [Input.bytes_child] at hchild
    rw [tagAt_congr hi h, hchild]
    exact ht hi
  have hpass (i : Fin ir.arity) (t : Input (struct ir fields).wire)
      (ht : AgreeOn Input.view (fieldReads ir fields i) s t) : ∃ t', step t i = some t' ∧
        done i t' ∧ AgreeOn Input.view (fieldWrites ir fields i)ᶜ t t' := by
    cases hi : (fields i).tagEnum with
    | some e =>
      have hsome : (fields i).tagEnum.isSome := by rw [hi]; rfl
      exact ⟨t, hsibling i hsome t, fun h => absurd (h ▸ hsome) (by simp), AgreeOn.refl⟩
    | none =>
      obtain ⟨t', hrun, hp, hframe⟩ :=
        hstep i hi t (child_field_congr hi ht) (tagAt_congr hi ht)
      exact ⟨t', hrun, fun _ => hp, hframe⟩
  obtain ⟨s', hrun, hposts, -⟩ :=
    foldEach_spec (fun i j hij => fieldReads_disjoint hlink hij) hdone hpass
  exact ⟨s', hrun, hposts⟩

/-- Committing one field leaves what its commit wrote under the target's tag, and touches
nothing else. -/
theorem commitField_spec (hlink : ir.Linked fields) (hi : (fields i).tagEnum = none)
    {initializing : Bool} {target current : ℕ}
    (commit : Bool → Input (fields i).wire → Option (Input (fields i).wire))
    {child : Input (fields i).wire}
    (hlt : ∀ e, (fields i).payloadEnum = some e → target < e.arity)
    (hzero : (fields i).payloadEnum = none → target = 0)
    (hcurrent : Current ir fields initializing s.bytes i current)
    (hcommit : commit (initializing || decide (current ≠ target))
      (s.child (fieldPlace ir fields i)) = some child) :
    ∃ s', commitField ir fields initializing i target commit s = some s' ∧
      (fieldPlace ir fields i).get s'.bytes = child.bytes ∧
      tagAt ir fields s'.bytes i = some target ∧
      AgreeOn Input.view (fieldWrites ir fields i)ᶜ s s' := by
  have hwrites : Input.covered (fieldPlace ir fields i).toCell ⊆ fieldWrites ir fields i := by
    rw [fieldWrites, hi]
    exact Set.subset_union_left
  have hput := (s.agreeOn_put (fieldPlace ir fields i).toCell child.bytes).mono
    (Set.compl_subset_compl.mpr hwrites)
  have hskip : (fields i).tagEnum.isSome = false := by rw [hi]; rfl
  simp only [commitField, hskip, Bool.false_eq_true, if_false]
  cases ht : ir.tagField i with
  | none =>
    have hpay : (fields i).payloadEnum = none := hlink.payloadEnum_eq_none ht
    have hflag : (initializing || decide (current ≠ target)) = initializing := by
      cases initializing with
      | true => rfl
      | false =>
        have hnow : tagAt ir fields s.bytes i = some current := hcurrent
        rw [tagAt_of_none ht, Option.some.injEq] at hnow
        simp [← hnow, hzero hpay]
    rw [hflag] at hcommit
    refine ⟨_, ?_, Cell.get_put _ _ _, (tagAt_of_none ht _).trans (congrArg some (hzero hpay).symm),
      hput⟩
    simp only [Input.subrangeMut_place, hcommit, Option.map_some]
  | some t =>
    obtain ⟨tir, payload, hfield, htag⟩ := hlink.ends ht
    have hne : t ≠ i := by
      rintro rfl
      have hsome := hlink.tagEnum_isSome ht
      rw [hi] at hsome
      cases hsome
    -- storing the tag after the payload
    have hswitch (hcommit : commit true (s.child (fieldPlace ir fields i)) = some child) :
        ∃ s', commitPayloadBeforeTagWith s (fieldPlace ir fields t).offset
            (fieldPlace ir fields i).offset (commit true) ((fields t).storeTag target) = some s' ∧
          (fieldPlace ir fields i).get s'.bytes = child.bytes ∧
          tagAt ir fields s'.bytes i = some target ∧
          AgreeOn Input.view (fieldWrites ir fields i)ᶜ s s' := by
      obtain ⟨stored, hstore, hload⟩ := storeTag_spec (c := fields t) (e := tir.tagType)
        (by rw [htag]; rfl) (hlt _ (by rw [hfield]; rfl))
        ((s.put (fieldPlace ir fields i).toCell child.bytes).child (fieldPlace ir fields t))
      refine ⟨(s.put (fieldPlace ir fields i).toCell child.bytes).put
        (fieldPlace ir fields t).toCell stored.bytes, ?_, ?_, ?_,
        hput.trans ((Input.agreeOn_put _ _ _).mono ?_)⟩
      · rw [commitPayloadBeforeTagWith_eq s _ _ hcommit, hstore]
        rfl
      · rw [Input.bytes_put, Cell.get_put_of_disjoint (fieldPlace_disjoint ir fields hne.symm),
          Input.bytes_put, Cell.get_put]
      · rw [tagAt_of_link ht, Input.bytes_put, Cell.get_put]
        exact hload
      · rw [Set.compl_subset_compl, fieldWrites, hi, ht]
        exact Set.subset_union_right
    cases initializing with
    | true => exact hswitch hcommit
    | false =>
      have hnow : tagAt ir fields s.bytes i = some current := hcurrent
      have hread : currentTag ir fields s t = some current := by
        rw [currentTag, selectField_eq, ← hnow, tagAt_of_link ht]
        rfl
      simp only [hread, Bool.false_eq_true, if_false, Option.bind_eq_bind, Option.bind_some]
      by_cases heq : target = current
      · have hflag : (false || decide (current ≠ target)) = false := by simp [heq]
        rw [hflag] at hcommit
        rw [if_pos heq]
        refine ⟨_, ?_, Cell.get_put _ _ _, ?_, hput⟩
        · simp only [Input.subrangeMut_place, hcommit, Option.map_some]
        · rw [tagAt_of_link ht, Input.bytes_put,
            Cell.get_put_of_disjoint (fieldPlace_disjoint ir fields hne), ← tagAt_of_link ht, hnow,
            heq]
      · have hflag : (false || decide (current ≠ target)) = true := by simp [Ne.symm heq]
        rw [hflag] at hcommit
        rw [if_neg heq]
        exact hswitch hcommit

end Record

/-- The element loop. -/
theorem foldEach_elements {element : Category} {n : ℕ} {input : Input (array element n).wire}
    (commit : Fin n → Input element.wire → Option (Input element.wire))
    (post : Fin n → Bytes element.wire.size → Prop)
    (hcommit : ∀ j, ∃ child, commit j (input.child (elementPlace element j)) = some child ∧
      post j child.bytes) :
    ∃ input', foldEach n (fun input j => commitElement element n j (commit j) input) input =
      some input' ∧ ∀ j, post j ((elementPlace element j).get input'.bytes) := by
  let writes (j : Fin n) : Set (Option ℕ) := Input.covered (elementPlace element j).toCell
  have hsep (i j : Fin n) (hij : i ≠ j) : Disjoint (insert none (writes i)) (writes j) :=
    Set.disjoint_insert_left.mpr
      ⟨by simp [writes, Input.covered], Input.covered_disjoint (elementPlace_disjoint element hij)⟩
  have hpost (j : Fin n) (t t' : Input (array element n).wire)
      (h : AgreeOn Input.view (insert none (writes j)) t t')
      (ht : post j ((elementPlace element j).get t.bytes)) :
      post j ((elementPlace element j).get t'.bytes) := by
    rwa [Input.get_congr (h.mono (Set.subset_insert _ _))]
  have hstep (j : Fin n) (t : Input (array element n).wire)
      (ht : AgreeOn Input.view (insert none (writes j)) input t) :
      ∃ t', commitElement element n j (commit j) t = some t' ∧
        post j ((elementPlace element j).get t'.bytes) ∧ AgreeOn Input.view (writes j)ᶜ t t' := by
    obtain ⟨child, hchild, hp⟩ := hcommit j
    refine ⟨t.put (elementPlace element j).toCell child.bytes, ?_, ?_, Input.agreeOn_put _ _ _⟩
    · rw [commitElement_eq, Input.child_congr ht, hchild]
      rfl
    · rwa [Input.bytes_put, Cell.get_put]
  obtain ⟨input', hrun, hposts, -⟩ := foldEach_spec hsep hpost hstep
  exact ⟨input', hrun, hposts⟩

end Category

end ZeroSchema
