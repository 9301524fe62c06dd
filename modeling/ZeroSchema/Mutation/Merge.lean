import ZeroSchema.Mutation.Patch

/-! What a patch means. `merge` applies a patch to a logical value, or gives the value of a
complete patch where there is none to start from, and the two-pass engine computes it. -/
namespace ZeroSchema
open Storage Control

/-- The payload that a tag sibling belongs to. -/
def StructIr.owner (ir : StructIr) (t : Fin ir.arity) : Option (Fin ir.arity) :=
  (List.finRange ir.arity).find? fun i => ir.tagField i = some t

theorem StructIr.Linked.owner_eq {ir : StructIr} {fields : Fin ir.arity → Category}
    (h : ir.Linked fields) {i t : Fin ir.arity} (ht : ir.tagField i = some t) :
    ir.owner t = some i := by
  cases ho : ir.owner t with
  | none =>
    have hall := List.find?_eq_none.mp ho i (List.mem_finRange i)
    simp [ht] at hall
  | some j =>
    have hj : ir.tagField j = some t := by simpa using List.find?_some ho
    rw [h.unique j i t hj ht]

namespace Category

/-- The tag sibling's value for a tag. -/
def ofTag : (c : Category) → ℕ → Option c.Logical
  | tagSibling ir, tag => if h : tag < ir.arity then some ⟨tag, h⟩ else none
  | _, _ => none

/-- The payload of a tagged value when it is of the given variant. -/
def payloadOf {ir : TaggedIr} {payload : Fin ir.arity → Category} (k : Fin ir.arity)
    (v : (tagged ir payload).Logical) : Option (payload k).Logical :=
  if h : v.1 = k then some (h ▸ v.2) else none

/-- An absent entry keeps the old value. A sibling's tag follows the entry of its payload. -/
def mergeField {ir : StructIr} {fields : Fin ir.arity → Category}
    (merge : (i : Fin ir.arity) → Option (fields i).Logical → (fields i).Patch →
      Option (fields i).Logical)
    (base : Option (struct ir fields).Logical) (p : (struct ir fields).Patch) (i : Fin ir.arity) :
    Option (fields i).Logical :=
  let old := base.map fun v => v i
  if (fields i).tagEnum.isSome then
    match (ir.owner i).bind fun owner => (p owner).map (fields owner).patchTag with
    | none => old
    | some tag => (fields i).ofTag tag
  else
    match p i with
    | none => old
    | some entry => merge i old entry

/-- The value of a patch over a base value, if any. -/
def merge : (c : Category) → Option c.Logical → c.Patch → Option c.Logical
  | primitive _ _, _, p | bool, _, p | string _, _, p | fixedBytes _, _, p | tagSibling _, _, p
  | unit, _, p | array _ _, _, p => some p
  | scalarEnum _, base, p => p.or base
  | struct _ fields, base, p => collect (mergeField (fun i => merge (fields i)) base p)
  | tagged _ payload, base, ⟨k, p⟩ =>
    (merge (payload k) (base.bind (payloadOf k)) p).map (Sigma.mk k)
  | optional _ _, _, none => some none
  | optional _ inner, base, some p => (merge inner base.join p).map some

variable [Target]

/-- The value that an engine starts from, if any. -/
def Start (c : Category) (initializing : Bool) (tag : ℕ) (b : Bytes c.wire.size)
    (base : Option c.Logical) : Prop :=
  if initializing then base = none else ∃ v, base = some v ∧ c.Represents tag b v

theorem Start.valid {c : Category} {initializing : Bool} {tag : ℕ} {input : Input c.wire}
    {base : Option c.Logical} (h : c.Start initializing tag input.bytes base) :
    initializing = true ∨ c.Valid tag input.bytes := by
  cases initializing with
  | true => exact Or.inl rfl
  | false =>
    obtain ⟨v, -, hv⟩ := h
    exact Or.inr (Represents.valid c hv)

theorem Start.initializing_iff {c : Category} {initializing : Bool} {tag : ℕ}
    {b : Bytes c.wire.size} {base : Option c.Logical} (h : c.Start initializing tag b base) :
    initializing = true ↔ base = none := by
  cases initializing with
  | true => exact ⟨fun _ => h, fun _ => rfl⟩
  | false =>
    obtain ⟨v, rfl, -⟩ := h
    simp

theorem Start.field {ir : StructIr} {fields : Fin ir.arity → Category} {initializing : Bool}
    {tag current : ℕ} {b : Bytes (struct ir fields).wire.size}
    {base : Option (struct ir fields).Logical} {i : Fin ir.arity}
    (h : (struct ir fields).Start initializing tag b base)
    (hcurrent : Current ir fields initializing b i current) :
    (fields i).Start initializing current ((fieldPlace ir fields i).get b)
      (base.map fun v => v i) := by
  cases initializing with
  | true =>
    obtain rfl : base = none := h
    rfl
  | false =>
    obtain ⟨v, rfl, hv⟩ := h
    obtain ⟨now, hnow, hvi⟩ := hv i
    obtain rfl := Option.some.inj (hnow.symm.trans hcurrent)
    exact ⟨v i, rfl, hvi⟩

/-- There is a payload to start from exactly where the stored variant stays. -/
theorem Start.payload {ir : TaggedIr} {payload : Fin ir.arity → Category}
    (hd : Function.Injective ir.tag) {initializing : Bool} {tag : ℕ}
    {b : Bytes (tagged ir payload).wire.size} {base : Option (tagged ir payload).Logical}
    (h : (tagged ir payload).Start initializing tag b base) (k : Fin ir.arity) :
    (payload k).Start (initializing || decide (tag ≠ ir.tag k)) 0
      ((payloadPlace ir payload k).get b) (base.bind (payloadOf k)) := by
  cases initializing with
  | true =>
    obtain rfl : base = none := h
    rfl
  | false =>
    obtain ⟨⟨l, v⟩, rfl, hl, hv⟩ := h
    have htag : (ir.tag l : ℕ) = tag := TaggedIr.tag_of_select hl
    by_cases hlk : l = k
    · subst hlk
      simp only [← htag, ne_eq, not_true_eq_false, decide_false, Bool.or_false]
      exact ⟨v, dif_pos rfl, hv⟩
    · have hne : tag ≠ ir.tag k := fun h => hlk (hd (Fin.ext (htag.trans h)))
      simp only [hne, ne_eq, not_false_eq_true, decide_true, Bool.or_true]
      exact dif_neg hlk

/-- There is a present value to start from exactly where the storage is not all zero. -/
theorem Start.present {align : Option Alignment} {inner : Category} {initializing : Bool} {tag : ℕ}
    {input : Input (optional align inner).wire} {base : Option (optional align inner).Logical}
    (h : (optional align inner).Start initializing tag input.bytes base) :
    inner.Start (initializing || input.isAllZero) 0
      ((presentPlace align inner).get input.bytes) base.join := by
  cases initializing with
  | true =>
    obtain rfl : base = none := h
    rfl
  | false =>
    obtain ⟨v, rfl, hv⟩ := h
    cases v with
    | none =>
      have hzero : input.isAllZero = true := Input.isAllZero_eq_true.mpr hv
      rw [hzero]
      rfl
    | some v =>
      have hzero : input.isAllZero = false := by
        rw [Bool.eq_false_iff]
        exact mt Input.isAllZero_eq_true.mp hv.1
      rw [hzero]
      exact ⟨v, rfl, hv.2⟩

/-- What an engine starts from: nothing, with a complete patch, or the destination's value. -/
def Base (c : Category) (initializing : Bool) (tag : ℕ) (b : Bytes c.wire.size)
    (base : Option c.Logical) (p : c.Patch) : Prop :=
  if initializing then base = none ∧ c.isComplete p = true
  else ∃ v, base = some v ∧ c.Represents tag b v

/-- A start and, where there is nothing to start from, a complete patch. -/
theorem base_iff {c : Category} {initializing : Bool} {tag : ℕ} {b : Bytes c.wire.size}
    {base : Option c.Logical} {p : c.Patch} : c.Base initializing tag b base p ↔
      c.Start initializing tag b base ∧ (initializing = true → c.isComplete p = true) := by
  cases initializing with
  | true =>
    constructor
    · intro h
      exact ⟨h.1, fun _ => h.2⟩
    · intro h
      exact ⟨h.1, h.2 rfl⟩
  | false =>
    constructor
    · intro h
      exact ⟨h, fun hinit => by cases hinit⟩
    · intro h
      exact h.1

theorem Base.start {c : Category} {initializing : Bool} {tag : ℕ} {b : Bytes c.wire.size}
    {base : Option c.Logical} {p : c.Patch} (h : c.Base initializing tag b base p) :
    c.Start initializing tag b base := (base_iff.mp h).1

theorem Start.base {c : Category} {initializing : Bool} {tag : ℕ} {b : Bytes c.wire.size}
    {base : Option c.Logical} {p : c.Patch} (h : c.Start initializing tag b base)
    (hcomplete : initializing = true → c.isComplete p = true) :
    c.Base initializing tag b base p := base_iff.mpr ⟨h, hcomplete⟩

section Record
variable {ir : StructIr} {fields : Fin ir.arity → Category} {initializing : Bool} {tag : ℕ}
  {b : Bytes (struct ir fields).wire.size} {base : Option (struct ir fields).Logical}
  {p : (struct ir fields).Patch} {i : Fin ir.arity}
  {merge : (i : Fin ir.arity) → Option (fields i).Logical → (fields i).Patch →
    Option (fields i).Logical}

omit [Target] in
theorem mergeField_eq (hi : (fields i).tagEnum = none) : mergeField merge base p i =
    match p i with
    | none => base.map fun v => v i
    | some entry => merge i (base.map fun v => v i) entry := by
  have hskip : (fields i).tagEnum.isSome = false := by rw [hi]; rfl
  simp only [mergeField, hskip, Bool.false_eq_true, if_false]

omit [Target] in
/-- A sibling's tag is that of the payload's entry, and stays where there is none. -/
theorem mergeField_sibling (hlink : ir.Linked fields) {t : Fin ir.arity}
    (ht : ir.tagField i = some t) : mergeField merge base p t =
      match p i with
      | none => base.map fun v => v t
      | some entry => (fields t).ofTag ((fields i).patchTag entry) := by
  have hskip := hlink.tagEnum_isSome ht
  simp only [mergeField, hskip, if_true, hlink.owner_eq ht, Option.bind_some]
  cases p i <;> rfl

omit [Target] in
theorem storedTag_ofTag {c : Category} {e : EnumIr} (hc : c.tagEnum = some e) {tag : ℕ}
    (h : tag < e.arity) : ∃ u, c.ofTag tag = some u ∧ c.storedTag u = tag := by
  cases c with
  | tagSibling ir =>
    obtain rfl := Option.some.inj hc
    exact ⟨⟨tag, h⟩, dif_pos h, rfl⟩
  | _ => cases hc

omit [Target] in
theorem ofTag_storedTag {c : Category} {e : EnumIr} (hc : c.tagEnum = some e) (v : c.Logical) :
    c.ofTag (c.storedTag v) = some v := by
  cases c with
  | tagSibling ir => exact dif_pos (Fin.isLt v)
  | _ => cases hc

theorem Base.field (h : (struct ir fields).Base initializing tag b base p)
    {current : ℕ} (hcurrent : Current ir fields initializing b i current)
    {entry : (fields i).Patch} (hp : p i = some entry) :
    (fields i).Base initializing current ((fieldPlace ir fields i).get b)
      (base.map fun v => v i) entry := by
  rw [base_iff] at h ⊢
  refine ⟨h.1.field hcurrent, fun hinit => ?_⟩
  obtain ⟨entry', hp', hentry⟩ := isComplete_struct.mp (h.2 hinit) i
  obtain rfl := Option.some.inj (hp.symm.trans hp')
  exact hentry

/-- An absent entry is only met over the value that the destination holds. -/
theorem Base.absent (h : (struct ir fields).Base initializing tag b base p) (hp : p i = none) :
    ∃ v, base = some v ∧ (struct ir fields).Represents tag b v := by
  cases initializing with
  | true =>
    obtain ⟨entry, hentry, -⟩ := isComplete_struct.mp h.2 i
    rw [hp] at hentry
    cases hentry
  | false => exact h

/-- What one pass of the record loop establishes: the field holds its merged value under
some tag, and that tag is the one its sibling is to have. -/
def Merged (merge : (i : Fin ir.arity) → Option (fields i).Logical → (fields i).Patch →
      Option (fields i).Logical)
    (base : Option (struct ir fields).Logical) (p : (struct ir fields).Patch) (i : Fin ir.arity)
    (tag : Option ℕ) (b : Bytes (fields i).wire.size) : Prop :=
  ∃ current, tag = some current ∧
    (∃ w, mergeField merge base p i = some w ∧ (fields i).Represents current b w) ∧
    ∀ t, ir.tagField i = some t →
      ∃ u, mergeField merge base p t = some u ∧ (fields t).storedTag u = current

/-- The fields' merged values make up the record's. -/
theorem represents_merged (hlink : ir.Linked fields)
    (h : ∀ i, (fields i).tagEnum = none →
      Merged merge base p i (tagAt ir fields b i) ((fieldPlace ir fields i).get b)) :
    ∃ v, collect (mergeField merge base p) = some v ∧ (struct ir fields).Represents 0 b v := by
  have hall (i : Fin ir.arity) : ∃ w, mergeField merge base p i = some w := by
    cases hi : (fields i).tagEnum with
    | none =>
      obtain ⟨tag, -, ⟨w, hw, -⟩, -⟩ := h i hi
      exact ⟨w, hw⟩
    | some e =>
      obtain ⟨owner, howner⟩ := hlink.owner i (by rw [hi]; rfl)
      obtain ⟨tag, -, -, hsibling⟩ := h owner (hlink.tagEnum_eq_none howner)
      obtain ⟨u, hu, -⟩ := hsibling i howner
      exact ⟨u, hu⟩
  choose v hv using hall
  refine ⟨v, collect_eq_some.mpr hv, represents_fields hlink ?_ ?_⟩
  · intro i t ht
    obtain ⟨tag, -, ⟨w, hw, hrep⟩, hsibling⟩ := h i (hlink.tagEnum_eq_none ht)
    obtain ⟨u, hu, hstored⟩ := hsibling t ht
    obtain rfl := Option.some.inj (hw.symm.trans (hv i))
    obtain rfl := Option.some.inj (hu.symm.trans (hv t))
    rw [hstored, logicalTag_of_represents (hlink.link i t ht).1 hrep]
  · intro i hi
    obtain ⟨tag, htag, ⟨w, hw, hrep⟩, -⟩ := h i hi
    obtain rfl := Option.some.inj (hw.symm.trans (hv i))
    exact ⟨tag, htag, hrep⟩

/-- One pass of the record loop. -/
theorem commitPatchField_spec (hlink : ir.Linked fields) {input t : Input (struct ir fields).wire}
    (hi : (fields i).tagEnum = none)
    (hbase : (struct ir fields).Base initializing tag input.bytes base p)
    (commit : (i : Fin ir.arity) → (fields i).Patch → Bool → Input (fields i).wire →
      Option (Input (fields i).wire))
    (hcommit : ∀ entry, p i = some entry → ∀ current,
      Current ir fields initializing input.bytes i current → ∃ w child,
        merge i (base.map fun v => v i) entry = some w ∧
        commit i entry (initializing || decide (current ≠ (fields i).patchTag entry))
          (input.child (fieldPlace ir fields i)) = some child ∧
        (fields i).Represents ((fields i).patchTag entry) child.bytes w)
    (hchild : t.child (fieldPlace ir fields i) = input.child (fieldPlace ir fields i))
    (htag : tagAt ir fields t.bytes i = tagAt ir fields input.bytes i) :
    ∃ t', commitPatchField ir fields commit initializing p t i = some t' ∧
      Merged merge base p i (tagAt ir fields t'.bytes i)
        ((fieldPlace ir fields i).get t'.bytes) ∧
      AgreeOn Input.view (fieldWrites ir fields i)ᶜ t t' := by
  obtain ⟨current, hcurrent, hfree, -⟩ := exists_current hlink hbase.start.valid i
  cases hp : p i with
  | none =>
    obtain ⟨v, rfl, hv⟩ := hbase.absent hp
    obtain ⟨now, hnow, hvi⟩ := hv i
    have hget := congrArg Input.bytes hchild
    simp only [Input.bytes_child] at hget
    refine ⟨t, ?_, ⟨now, htag.trans hnow, ⟨v i, ?_, hget ▸ hvi⟩, fun s hs => ?_⟩, AgreeOn.refl⟩
    · simp only [commitPatchField, hp]
    · simp only [mergeField_eq hi, hp, Option.map_some]
    · obtain ⟨_, _, hsibling⟩ := hv s
      rw [tagAt_of_link hs] at hnow
      refine ⟨v s, ?_, storedTag_of_represents hnow hsibling⟩
      simp only [mergeField_sibling hlink hs, hp, Option.map_some]
  | some entry =>
    obtain ⟨w, child, hmerge, hrun, hrep⟩ := hcommit entry hp current hcurrent
    rw [← hchild] at hrun
    obtain ⟨t', hstep, hget, htag', hframe⟩ := commitField_spec hlink hi (commit i entry)
      (fun e he => patchTag_lt he entry) (fun h => patchTag_eq_zero h entry)
      (hcurrent.congr htag) hrun
    refine ⟨t', ?_, ⟨_, htag', ⟨w, ?_, hget ▸ hrep⟩, fun s hs => ?_⟩, hframe⟩
    · simp only [commitPatchField, hp, hstep]
    · simp only [mergeField_eq hi, hp, hmerge]
    · obtain ⟨tir, payload, hpayload, htagged⟩ := hlink.ends hs
      simp only [mergeField_sibling hlink hs, hp]
      exact storedTag_ofTag (e := tir.tagType) (by rw [htagged]; rfl)
        (patchTag_lt (by rw [hpayload]; rfl) entry)

end Record

/-- What a commit does for a category that no tag selects. -/
theorem commitPatch_untagged {c : Category} (hpay : c.payloadEnum = none) {initializing : Bool}
    {input : Input c.wire} {base : Option c.Logical} {p : c.Patch}
    (h : ∃ w input', c.merge base p = some w ∧
      c.commitPatch p (initializing || decide (0 ≠ c.patchTag p)) input = some input' ∧
      c.Represents (c.patchTag p) input'.bytes w) :
    ∃ w input', c.merge base p = some w ∧ c.commitPatch p initializing input = some input' ∧
      c.Represents 0 input'.bytes w := by
  simpa [patchTag_eq_zero hpay] using h

/-- A preflighted patch is committed without a panic, and the destination then holds the
merged value. -/
theorem commitPatch_spec (c : Category) (h : c.Accepted) (hd : c.DistinctTags)
    (initializing : Bool) {ctx : Context} {tag : ℕ} (input : Input c.wire)
    {base : Option c.Logical} {p : c.Patch} (hbase : c.Base initializing tag input.bytes base p)
    (hfree : c.payloadEnum = none → tag = 0)
    (hpre : c.preflightPatch initializing ctx tag input p = .ok ()) :
    ∃ w input', c.merge base p = some w ∧
      c.commitPatch p (initializing || decide (tag ≠ c.patchTag p)) input = some input' ∧
      c.Represents (c.patchTag p) input'.bytes w := by
  induction c generalizing initializing ctx tag with
  | primitive q e => exact ⟨p, _, rfl, rfl, q.get_storePreflighted e p⟩
  | bool => exact ⟨p, _, rfl, rfl, BoolWire.decode_storePreflighted p⟩
  | string s =>
    obtain ⟨input', hrun, hrep⟩ := s.commit_spec input (StringIr.preflight_eq_ok.mp hpre)
    exact ⟨p, input', rfl, hrun, hrep⟩
  | fixedBytes n => exact ⟨p, _, rfl, rfl, rfl⟩
  | scalarEnum ir =>
    cases p with
    | some v => exact ⟨v, _, rfl, rfl, EnumIr.load_commit v⟩
    | none =>
      cases initializing with
      | true => cases hbase.2
      | false =>
        obtain ⟨v, rfl, hv⟩ := hbase
        exact ⟨v, input, rfl, rfl, hv⟩
  | tagSibling ir => exact ⟨p, _, rfl, rfl, EnumIr.load_commit p⟩
  | unit => exact ⟨p, _, rfl, rfl, trivial⟩
  | struct ir fields ih =>
    obtain rfl := hfree rfl
    rw [patchTag_flag rfl, commitPatch]
    have hfields := forEach_eq_ok.mp hpre
    have hstep (i : Fin ir.arity) (hi : (fields i).tagEnum = none)
        (t : Input (struct ir fields).wire)
        (hchild : t.child (fieldPlace ir fields i) = input.child (fieldPlace ir fields i))
        (htag : tagAt ir fields t.bytes i = tagAt ir fields input.bytes i) :
        ∃ t', commitPatchField ir fields (fun i => commitPatch (fields i)) initializing p t i =
            some t' ∧
          Merged (fun i => merge (fields i)) base p i (tagAt ir fields t'.bytes i)
            ((fieldPlace ir fields i).get t'.bytes) ∧
          AgreeOn Input.view (fieldWrites ir fields i)ᶜ t t' := by
      refine commitPatchField_spec h.2.1 hi hbase _ (fun entry hp current hcurrent => ?_) hchild htag
      have hfree := hcurrent.eq_zero h.2.1
      have hentry := ((preflightPatchField_eq_ok hi hcurrent hfree h.2.1).mp (hfields i)).2 entry hp
      exact ih i (h.1 i).1 (hd i) _ (input.child (fieldPlace ir fields i)) (hbase.field hcurrent hp)
        hfree hentry
    obtain ⟨input', hrun, hmerged⟩ := foldEach_fields h.2.1
      (Merged (fun i => merge (fields i)) base p) (fun i hi t => commitPatchField_sibling hi) hstep
    obtain ⟨v, hv, hrep⟩ := represents_merged h.2.1 hmerged
    exact ⟨v, input', hv, hrun, hrep⟩
  | tagged ir payload ih =>
    obtain ⟨k, p⟩ := p
    have hpay : (payload k).payloadEnum = none := payloadEnum_eq_none (Or.inl (h.1 k).2)
    obtain ⟨hcomplete, hpre⟩ := requireComplete_eq_ok.mp hpre
    rw [onLayout_payload, Outcome.ok_bind] at hpre
    obtain ⟨w, child, hmerge, hcommit, hrep⟩ := commitPatch_untagged hpay
      (ih k (h.1 k).1 (hd.2 k) _ (input.child (payloadPlace ir payload k))
        ((hbase.start.payload hd.1 _).base hcomplete) (fun _ => rfl) (Outcome.mapErr_eq_ok.mp hpre))
    refine ⟨⟨k, w⟩, input.put (payloadPlace ir payload k).toCell child.bytes, ?_, ?_,
      TaggedIr.select_tag hd.1 k, ?_⟩
    · rw [merge, hmerge]
      rfl
    · exact (input.subrangeMut_place (payloadPlace ir payload k) _).trans
        (congrArg (Option.map _) hcommit)
    · rw [Input.bytes_put, Cell.get_put]
      exact hrep
  | array element n ih =>
    obtain rfl := hfree rfl
    have hfits := (preflightLogical_eq_ok (array element n) h hd hbase.start.valid).mp hpre
    obtain ⟨input', hrun, hrep⟩ := commitLogical_spec (array element n) h hd _ input hbase.start.valid
      (fun _ => rfl) hfits
    exact ⟨p, input', rfl, hrun, hrep⟩
  | optional align inner ih =>
    cases p with
    | none => exact ⟨none, input.clearAll, rfl, rfl, Bytes.isZero_zero⟩
    | some p =>
      have hpay : inner.payloadEnum = none := payloadEnum_eq_none (Or.inr (Or.inr h.2.1))
      rw [preflightPatch, Context.onLayout_subrange, Outcome.ok_bind] at hpre
      obtain ⟨hcomplete, hpre⟩ := requireComplete_eq_ok.mp hpre
      obtain ⟨w, child, hmerge, hcommit, hrep⟩ := commitPatch_untagged hpay
        (ih h.1 hd _ (input.child (presentPlace align inner)) (hbase.start.present.base hcomplete)
          (fun _ => rfl) (childFailure_eq_ok.mp hpre))
      refine ⟨some w, input.put (presentPlace align inner).toCell child.bytes, ?_, ?_,
        represents_put_present h hrep⟩
      · rw [merge, hmerge]
        rfl
      · obtain rfl := hfree rfl
        rw [patchTag_flag rfl, commitPatch, Input.subrangeMut_place, hcommit]
        rfl

/-- A converted value merges to itself over anything. -/
theorem merge_fromLogical (c : Category) (h : c.Accepted) {v : c.Logical} (hv : c.Fits v)
    (base : Option c.Logical) : c.merge base (c.fromLogical v) = some v := by
  induction c with
  | primitive | bool | string | fixedBytes | scalarEnum | tagSibling | unit | array => rfl
  | struct ir fields ih =>
    refine collect_eq_some.mpr fun i => ?_
    cases hi : (fields i).tagEnum with
    | none =>
      rw [mergeField_eq hi]
      exact ih i (h.1 i).1 (hv.2 i) _
    | some e =>
      obtain ⟨owner, howner⟩ := h.2.1.owner i (by rw [hi]; rfl)
      rw [mergeField_sibling h.2.1 howner]
      simp only [fromLogical, patchTag_fromLogical, ← hv.1 owner i howner]
      exact ofTag_storedTag hi (v i)
  | tagged ir payload ih =>
    obtain ⟨k, v⟩ := v
    simp only [merge, fromLogical, ih k (h.1 k).1 hv, Option.map_some]
  | optional align inner ih =>
    cases v with
    | none => rfl
    | some v => simp only [merge, fromLogical, ih h.1 hv, Option.map_some]

end Category

end ZeroSchema
