import ZeroSchema.Mutation.Footprint
import ZeroSchema.Mutation.Merge

/-! Write sets. Every commit keeps to the bytes of the value it writes; a record patch keeps to
those of its entries and, where an entry switches a payload, to the tag. -/
namespace ZeroSchema
open Storage Control

namespace Input
variable {W F : Layout}

/-- At most the bytes in `X` have changed. -/
def Changes [Target] (X : Set ℕ) (before after : Input W) : Prop :=
  AgreeOn view (some '' X)ᶜ before after

variable [Target] {X Y : Set ℕ} {input out : Input W}

theorem changes_iff : Changes X input out ↔
    out.address = input.address ∧ AgreeOn Bytes.view Xᶜ input.bytes out.bytes := by
  constructor
  · intro h
    refine ⟨Sum.inl.inj (h none (by simp)), fun k hk => Sum.inr.inj (h (some k) ?_)⟩
    rintro ⟨j, hj, heq⟩
    obtain rfl := Option.some.inj heq
    exact hk hj
  · rintro ⟨haddress, hbytes⟩ k hk
    cases k with
    | none => exact congrArg Sum.inl haddress
    | some k =>
      have hk' : k ∉ X := fun h => hk ⟨k, h, rfl⟩
      exact congrArg Sum.inr (hbytes k hk')

theorem Changes.refl : Changes X input input := AgreeOn.refl

theorem Changes.mono (h : Changes X input out) (hXY : X ⊆ Y) : Changes Y input out :=
  AgreeOn.mono (Set.compl_subset_compl.mpr (Set.image_mono hXY)) h

theorem Changes.trans {next : Input W} (h : Changes X input out) (h' : Changes X out next) :
    Changes X input next := AgreeOn.trans h h'

/-- There is nothing to change past the end. -/
theorem Changes.bounded (h : Changes X input out) : Changes (X ∩ Set.Iio W.size) input out := by
  rw [changes_iff] at h ⊢
  refine ⟨h.1, fun k hk => ?_⟩
  by_cases hX : k ∈ X
  · have hle : W.size ≤ k := not_lt.mp fun hlt => hk ⟨hX, hlt⟩
    exact Bytes.agreeOn_past input.bytes out.bytes k (not_lt.mpr hle)
  · exact h.2 k hX

theorem changes_overwrite (x : Bytes W.size) : Changes (Set.Iio W.size) input (input.overwrite x) := by
  rw [changes_iff]
  exact ⟨rfl, Bytes.agreeOn_past input.bytes x⟩

/-- What changed in a part is all that changed in the whole. -/
theorem Changes.put {p : Place W F} {child : Input F} (h : Changes X (input.child p) child) :
    Changes (p.image X) input (input.put p.toCell child.bytes) := by
  rw [changes_iff] at h ⊢
  exact ⟨rfl, Cell.agreeOn_put_image h.2⟩

theorem changes_put {n : ℕ} (p : Cell W.size n) (x : Bytes n) :
    Changes p.region input (input.put p x) := by
  rw [changes_iff]
  exact ⟨rfl, p.agreeOn_put input.bytes x⟩

theorem Changes.subrangeMut {p : Place W F} {commit : Input F → Option (Input F)}
    (hrun : input.subrangeMut F p.offset commit = some out)
    (h : ∀ child, commit (input.child p) = some child → Changes X (input.child p) child) :
    Changes (p.image X) input out := by
  rw [subrangeMut_place] at hrun
  obtain ⟨child, hchild, rfl⟩ := Option.map_eq_some_iff.mp hrun
  exact (h child hchild).put

end Input

open Input

section
variable [Target]

/-- A string write keeps to the prefix and the new units, or to the new units and one terminator. -/
theorem StringIr.commit_changes (s : StringIr) {input out : Input s.wire} {value : s.Value}
    (h : s.commit input value = some out) : Changes (s.footprint value) input out := by
  have prefixed {w : WireInt} {data : Layout} {input out : Input (Layout.record (members w data))}
      {source : List UInt8} {y : Bytes w.bytes}
      (hrun : commitPrefixed w data input (fun old => do
        let new ← copyFromSlice old source
        some (y, new)) = some out) :
      Changes ((lenPlace w data).region ∪ (dataPlace w data).image (Set.Iio source.length))
        input out := by
    cases hcopy : copyFromSlice ((dataPlace w data).get input.bytes) source with
    | none =>
      rw [commitPrefixed, input.subrangeBytes_cell (dataPlace w data).toCell] at hrun
      change ((copyFromSlice ((dataPlace w data).get input.bytes) source >>= _) >>= _) = _ at hrun
      rw [hcopy] at hrun
      cases hrun
    | some x =>
      have hwrite : (copyFromSlice ((dataPlace w data).get input.bytes) source >>=
          fun new => some (y, new)) = some (y, x) := by
        rw [hcopy]
        rfl
      rw [commitPrefixed_eq (fun old => copyFromSlice old source >>= fun new => some (y, new))
        hwrite] at hrun
      obtain rfl := Option.some.inj hrun
      have hdata : Changes ((dataPlace w data).image (Set.Iio source.length)) input
          (input.put (dataPlace w data).toCell x) := by
        rw [changes_iff]
        exact ⟨rfl, Cell.agreeOn_put_image (copyFromSlice_agree hcopy)⟩
      exact (hdata.mono Set.subset_union_right).trans
        ((changes_put (lenPlace w data).toCell y).mono Set.subset_union_left)
  have whole {data : Layout} {input out : Input data} {source : List UInt8}
      (hrun : input.subrangeBytesMut 0 data.size (fun old => copyFromSlice old source) = some out) :
      Changes (Set.Iio source.length) input out := by
    have hsel := input.subrangeBytesMut_cell (Place.whole data).toCell
      fun old => copyFromSlice old source
    rw [Place.get_whole] at hsel
    obtain ⟨x, hcopy, rfl⟩ := Option.map_eq_some_iff.mp (hsel.symm.trans hrun)
    rw [changes_iff]
    refine ⟨rfl, ?_⟩
    rw [bytes_put, Place.put_whole]
    exact copyFromSlice_agree hcopy
  cases s with
  | str w e n =>
    have hchanges := prefixed h
    rw [length_utf8] at hchanges
    exact hchanges
  | cStr n => exact whole h
  | u16Str w e n =>
    have hchanges := prefixed h
    rw [length_nativeBytes] at hchanges
    exact hchanges
  | u16CStr n =>
    have hchanges := whole h
    rw [length_nativeBytes] at hchanges
    exact hchanges

end

namespace Category
variable [Target]

section Record
variable (ir : StructIr) (fields : Fin ir.arity → Category)

/-- Whether committing a field stores a tag: it does when the payload is initialized or is of
another variant than the stored one. -/
def switches (initializing : Bool) (b : Bytes (struct ir fields).wire.size) (i : Fin ir.arity)
    (target : ℕ) : Bool :=
  initializing || ((ir.tagField i).isSome && decide (tagAt ir fields b i ≠ some target))

/-- The bytes `X` of a field, and with a switch those of its tag. -/
def fieldChange (i : Fin ir.arity) (switch : Bool) (X : Set ℕ) : Set ℕ :=
  (fieldPlace ir fields i).image X ∪
    match ir.tagField i with
    | none => ∅
    | some t => if switch then (fieldPlace ir fields t).region else ∅

/-- The bytes that the entry of one field may change. -/
def entryWrites
    (writes : (i : Fin ir.arity) → Bool → Bytes (fields i).wire.size → (fields i).Patch → Set ℕ)
    (initializing : Bool) (b : Bytes (struct ir fields).wire.size) (p : (struct ir fields).Patch)
    (i : Fin ir.arity) : Set ℕ :=
  match p i with
  | none => ∅
  | some entry =>
    if (fields i).tagEnum.isSome then ∅
    else
      let switch := switches ir fields initializing b i ((fields i).patchTag entry)
      fieldChange ir fields i switch (writes i switch ((fieldPlace ir fields i).get b) entry)

end Record

/-- The bytes that committing a patch may change. -/
def patchWrites : (c : Category) → Bool → Bytes c.wire.size → c.Patch → Set ℕ
  | primitive p _, _, _, _ => Set.Iio p.width.bytes
  | bool, _, _, _ => Set.Iio 1
  | string s, _, _, v => s.footprint v
  | fixedBytes n, _, _, _ => Set.Iio n
  | scalarEnum _, _, _, none => ∅
  | scalarEnum ir, _, _, some _ | tagSibling ir, _, _, _ => Set.Iio ir.repr.bytes
  | struct ir fields, initializing, b, p =>
    ⋃ i, entryWrites ir fields (fun i => patchWrites (fields i)) initializing b p i
  | tagged ir payload, initializing, b, ⟨k, p⟩ =>
    (payloadPlace ir payload k).image
      (patchWrites (payload k) initializing ((payloadPlace ir payload k).get b) p)
  | unit, _, _, _ => ∅
  | array element n, _, _, v => (array element n).footprint v
  | optional align inner, _, _, none => Set.Iio (optional align inner).wire.size
  | optional align inner, initializing, b, some p =>
    (presentPlace align inner).image
      (patchWrites inner (initializing || decide b.IsZero) ((presentPlace align inner).get b) p)

theorem commitPayloadBeforeTagWith_changes {W T P : Layout} {root out : Input W} {tag : Place W T}
    {payload : Place W P} {X : Set ℕ} {commitPayload : Input P → Option (Input P)}
    {store : Input T → Option (Input T)}
    (hpayload : ∀ child, commitPayload (root.child payload) = some child →
      Changes X (root.child payload) child)
    (hrun : commitPayloadBeforeTagWith root tag.offset payload.offset commitPayload store =
      some out) : Changes (payload.image X ∪ tag.region) root out := by
  cases hchild : commitPayload (root.child payload) with
  | none =>
    rw [commitPayloadBeforeTagWith, root.checkedRange_cell tag.toCell,
      root.checkedRange_cell payload.toCell, root.subrangeMut_place, hchild] at hrun
    cases hrun
  | some child =>
    rw [commitPayloadBeforeTagWith_eq root tag payload hchild] at hrun
    obtain ⟨stored, -, rfl⟩ := Option.map_eq_some_iff.mp hrun
    have hput := (hpayload child hchild).put
    exact (hput.mono Set.subset_union_left).trans
      ((changes_put tag.toCell stored.bytes).mono Set.subset_union_right)

section Record
variable {ir : StructIr} {fields : Fin ir.arity → Category} {i : Fin ir.arity}
  {input out : Input (struct ir fields).wire} {X : Set ℕ}

/-- Committing a field keeps to the bytes of its value and, with a switch, to its tag. -/
theorem commitField_changes (hi : (fields i).tagEnum = none) {initializing : Bool} {target : ℕ}
    {commit : Bool → Input (fields i).wire → Option (Input (fields i).wire)}
    (hcommit : ∀ child, commit (switches ir fields initializing input.bytes i target)
      (input.child (fieldPlace ir fields i)) = some child →
      Changes X (input.child (fieldPlace ir fields i)) child)
    (hrun : commitField ir fields initializing i target commit input = some out) :
    Changes (fieldChange ir fields i (switches ir fields initializing input.bytes i target) X)
      input out := by
  have hskip : (fields i).tagEnum.isSome = false := by rw [hi]; rfl
  simp only [commitField, hskip, Bool.false_eq_true, if_false] at hrun
  unfold fieldChange
  cases ht : ir.tagField i with
  | none =>
    have hflag : switches ir fields initializing input.bytes i target = initializing := by
      simp [switches, ht]
    rw [hflag] at hcommit
    simp only [ht] at hrun ⊢
    rw [Set.union_empty]
    exact Changes.subrangeMut hrun hcommit
  | some t =>
    simp only [ht] at hrun ⊢
    cases initializing with
    | true =>
      have hflag : switches ir fields true input.bytes i target = true := rfl
      rw [hflag] at hcommit ⊢
      exact commitPayloadBeforeTagWith_changes hcommit hrun
    | false =>
      simp only [Bool.false_eq_true, if_false] at hrun
      obtain ⟨current, hcurrent, hrun⟩ := Option.bind_eq_some_iff.mp hrun
      have htag : tagAt ir fields input.bytes i = some current := by
        rw [currentTag, selectField_eq] at hcurrent
        rw [tagAt_of_link ht]
        exact hcurrent
      by_cases heq : target = current
      · have hflag : switches ir fields false input.bytes i target = false := by
          simp [switches, htag, heq]
        rw [if_pos heq] at hrun
        rw [hflag] at hcommit ⊢
        simp only [Bool.false_eq_true, if_false, Set.union_empty]
        exact Changes.subrangeMut hrun hcommit
      · have hflag : switches ir fields false input.bytes i target = true := by
          simp [switches, ht, htag, Ne.symm heq]
        rw [if_neg heq] at hrun
        rw [hflag] at hcommit ⊢
        exact commitPayloadBeforeTagWith_changes hcommit hrun

theorem fieldChange_mono {switch : Bool} {Y : Set ℕ} (hXY : X ⊆ Y) :
    fieldChange ir fields i switch X ⊆ fieldChange ir fields i true Y := by
  unfold fieldChange
  apply Set.union_subset_union (Cell.image_mono hXY)
  cases ir.tagField i with
  | none => exact subset_rfl
  | some t =>
    cases switch with
    | true => exact subset_rfl
    | false => exact Set.empty_subset _

/-- A tag sibling occupies its whole storage. -/
theorem footprint_sibling {c : Category} (hc : c.tagEnum.isSome) (v : c.Logical) :
    c.footprint v = Set.Iio c.wire.size := by
  cases c with
  | tagSibling ir => rfl
  | _ => cases hc

/-- Field and tag lie in the bytes that the record's value occupies. -/
theorem fieldChange_subset (hlink : ir.Linked fields) {switch : Bool}
    {v : (struct ir fields).Logical} (hX : X ⊆ (fields i).footprint (v i)) :
    fieldChange ir fields i switch X ⊆ (struct ir fields).footprint v := by
  have hfield (j : Fin ir.arity) : (fieldPlace ir fields j).image ((fields j).footprint (v j)) ⊆
      (struct ir fields).footprint v :=
    Set.subset_iUnion (fun j => (fieldPlace ir fields j).image ((fields j).footprint (v j))) j
  refine (fieldChange_mono hX).trans (Set.union_subset (hfield i) ?_)
  cases ht : ir.tagField i with
  | none => exact Set.empty_subset _
  | some t =>
    have htag := hfield t
    rw [footprint_sibling (hlink.tagEnum_isSome ht), Cell.image_Iio] at htag
    exact htag

theorem fieldChange_fieldWrites (hi : (fields i).tagEnum = none) {switch : Bool}
    (hX : X ⊆ Set.Iio (fields i).wire.size) :
    some '' fieldChange ir fields i switch X ⊆ fieldWrites ir fields i := by
  have hskip : (fields i).tagEnum.isSome = false := by rw [hi]; rfl
  unfold fieldChange fieldWrites
  simp only [hskip, Bool.false_eq_true, if_false]
  rw [Set.image_union]
  apply Set.union_subset_union (Set.image_mono ((fieldPlace ir fields i).image_subset_region hX))
  cases ir.tagField i with
  | none => simp
  | some t =>
    cases switch with
    | true => exact subset_rfl
    | false => simp

/-- A loop whose passes keep to their own parts keeps to these parts. -/
theorem changes_foldEach {W : Layout} {n : ℕ} {step : Input W → Fin n → Option (Input W)}
    {input out : Input W} {X : Set ℕ}
    (hstep : ∀ j s s', step s j = some s' → Changes X s s')
    (hrun : foldEach n step input = some out) : Changes X input out := by
  let reads (_ : Fin n) : Set (Option ℕ) := ∅
  let writes (_ : Fin n) : Set (Option ℕ) := some '' X
  have hsep (i j : Fin n) (_ : i ≠ j) : Disjoint (reads i) (writes j) := Set.empty_disjoint _
  have hframe := foldEach_frame hsep (fun j s s' _ => hstep j s s') hrun
  refine hframe.mono (Set.compl_subset_compl.mpr ?_)
  exact Set.iUnion_subset fun _ => subset_rfl

end Record

/-- The logical engine keeps to the bytes of the value that it writes. -/
theorem commitLogical_changes (c : Category) (h : c.Accepted) {initializing : Bool}
    {input out : Input c.wire} {v : c.Logical}
    (hrun : c.commitLogical v initializing input = some out) :
    Changes (c.footprint v) input out := by
  induction c generalizing initializing with
  | primitive | bool | fixedBytes | scalarEnum | tagSibling =>
    obtain rfl := Option.some.inj hrun
    exact changes_overwrite _
  | string s => exact s.commit_changes hrun
  | struct ir fields ih =>
    refine changes_foldEach (fun i s s' hs => ?_) hrun
    cases hi : (fields i).tagEnum with
    | some e =>
      have hskip : (fields i).tagEnum.isSome := by rw [hi]; rfl
      rw [commitField, if_pos hskip] at hs
      obtain rfl := Option.some.inj hs
      exact Changes.refl
    | none =>
      have hfield := commitField_changes hi (X := (fields i).footprint (v i))
        (fun child hchild => ih i (h.1 i).1 hchild) hs
      exact hfield.mono (fieldChange_subset h.2.1 subset_rfl)
  | tagged ir payload ih =>
    obtain ⟨k, v⟩ := v
    exact Changes.subrangeMut (p := payloadPlace ir payload k) hrun
      fun child hchild => ih k (h.1 k).1 hchild
  | unit =>
    obtain rfl := Option.some.inj hrun
    exact Changes.refl
  | array element n ih =>
    refine changes_foldEach (fun j s s' hs => ?_) hrun
    rw [commitElement_eq] at hs
    obtain ⟨child, hchild, rfl⟩ := Option.map_eq_some_iff.mp hs
    have helement := (ih h.1 hchild).put (p := elementPlace element j)
    exact helement.mono
      (Set.subset_iUnion (fun j : Fin n => (elementPlace element j).image (element.footprint (v j))) j)
  | optional align inner ih =>
    cases v with
    | none =>
      obtain rfl := Option.some.inj hrun
      exact changes_overwrite _
    | some v =>
      exact Changes.subrangeMut (p := presentPlace align inner) hrun
        fun child hchild => ih h.1 hchild

section Record
variable {ir : StructIr} {fields : Fin ir.arity → Category} {initializing : Bool}
  {input out : Input (struct ir fields).wire} {p : (struct ir fields).Patch}
  {writes : (i : Fin ir.arity) → Bool → Bytes (fields i).wire.size → (fields i).Patch → Set ℕ}

theorem entryWrites_eq {i : Fin ir.arity} (hi : (fields i).tagEnum = none)
    {b : Bytes (struct ir fields).wire.size} {entry : (fields i).Patch} (hp : p i = some entry) :
    entryWrites ir fields writes initializing b p i =
      fieldChange ir fields i (switches ir fields initializing b i ((fields i).patchTag entry))
        (writes i (switches ir fields initializing b i ((fields i).patchTag entry))
          ((fieldPlace ir fields i).get b) entry) := by
  have hskip : (fields i).tagEnum.isSome = false := by rw [hi]; rfl
  unfold entryWrites
  simp only [hp, hskip, Bool.false_eq_true, if_false]

/-- Nothing outside of its field is changed by an entry. -/
def bounded (writes : (i : Fin ir.arity) → Bool → Bytes (fields i).wire.size → (fields i).Patch →
      Set ℕ) (i : Fin ir.arity) (switch : Bool) (b : Bytes (fields i).wire.size)
    (entry : (fields i).Patch) : Set ℕ := writes i switch b entry ∩ Set.Iio (fields i).wire.size

/-- The record loop keeps to the bytes of the entries that are present. -/
theorem changes_entries (hlink : ir.Linked fields)
    {commit : (i : Fin ir.arity) → (fields i).Patch → Bool → Input (fields i).wire →
      Option (Input (fields i).wire)}
    (hcommit : ∀ i entry switch (child next : Input (fields i).wire),
      commit i entry switch child = some next →
      Changes (writes i switch child.bytes entry) child next)
    (hrun : foldEach ir.arity (commitPatchField ir fields commit initializing p) input = some out) :
    Changes (⋃ i, entryWrites ir fields (bounded writes) initializing input.bytes p i) input out := by
  let owned (i : Fin ir.arity) : Set (Option ℕ) :=
    some '' entryWrites ir fields (bounded writes) initializing input.bytes p i
  have howned (i : Fin ir.arity) : owned i ⊆ fieldWrites ir fields i := by
    cases hp : p i with
    | none => simp [owned, entryWrites, hp]
    | some entry =>
      cases hi : (fields i).tagEnum with
      | some e =>
        have hskip : (fields i).tagEnum.isSome := by rw [hi]; rfl
        simp [owned, entryWrites, hp, hskip]
      | none =>
        simp only [owned]
        rw [entryWrites_eq hi hp]
        exact fieldChange_fieldWrites hi Set.inter_subset_right
  have hsep (i j : Fin ir.arity) (hij : i ≠ j) : Disjoint (fieldReads ir fields i) (owned j) :=
    (fieldReads_disjoint hlink hij).mono_right (howned j)
  have hstep (i : Fin ir.arity) (s s' : Input (struct ir fields).wire)
      (hs : AgreeOn Input.view (fieldReads ir fields i) input s)
      (hrun : commitPatchField ir fields commit initializing p s i = some s') :
      AgreeOn Input.view (owned i)ᶜ s s' := by
    cases hi : (fields i).tagEnum with
    | some e =>
      rw [commitPatchField_sibling (by rw [hi]; rfl)] at hrun
      obtain rfl := Option.some.inj hrun
      exact AgreeOn.refl
    | none =>
      cases hp : p i with
      | none =>
        simp only [commitPatchField, hp] at hrun
        obtain rfl := Option.some.inj hrun
        exact AgreeOn.refl
      | some entry =>
        simp only [commitPatchField, hp] at hrun
        have hchild := child_field_congr hi hs
        have hswitch : switches ir fields initializing s.bytes i ((fields i).patchTag entry) =
            switches ir fields initializing input.bytes i ((fields i).patchTag entry) := by
          unfold switches
          rw [tagAt_congr hi hs]
        have hget := congrArg Input.bytes hchild
        rw [Input.bytes_child, Input.bytes_child] at hget
        have hfield := commitField_changes hi
          (fun child h => (hcommit i entry _ _ child h).bounded) hrun
        rw [hswitch, Input.bytes_child, hget] at hfield
        simp only [owned]
        rw [entryWrites_eq hi hp]
        exact hfield
  have hframe := foldEach_frame hsep hstep hrun
  refine hframe.mono (Set.compl_subset_compl.mpr (Set.iUnion_subset fun i => ?_))
  exact Set.image_mono (Set.subset_iUnion _ i)

theorem entryWrites_mono {b : Bytes (struct ir fields).wire.size}
    {more : (i : Fin ir.arity) → Bool → Bytes (fields i).wire.size → (fields i).Patch → Set ℕ}
    (h : ∀ i switch b entry, writes i switch b entry ⊆ more i switch b entry) (i : Fin ir.arity) :
    entryWrites ir fields writes initializing b p i ⊆ entryWrites ir fields more initializing b p i := by
  unfold entryWrites
  cases p i with
  | none => exact subset_rfl
  | some entry =>
    split_ifs
    · exact subset_rfl
    · exact Set.union_subset_union_left _ (Cell.image_mono (h i _ _ entry))

end Record

/-- The patch engine keeps to the bytes of the entries that are present. -/
theorem commitPatch_changes (c : Category) (h : c.Accepted) {initializing : Bool}
    {input out : Input c.wire} {p : c.Patch}
    (hrun : c.commitPatch p initializing input = some out) :
    Changes (c.patchWrites initializing input.bytes p) input out := by
  induction c generalizing initializing with
  | primitive | bool | fixedBytes | tagSibling =>
    obtain rfl := Option.some.inj hrun
    exact changes_overwrite _
  | string s => exact s.commit_changes hrun
  | scalarEnum ir =>
    cases p with
    | none =>
      obtain rfl := Option.some.inj hrun
      exact Changes.refl
    | some v =>
      obtain rfl := Option.some.inj hrun
      exact changes_overwrite _
  | struct ir fields ih =>
    have hchanges := changes_entries h.2.1 (fun i entry switch child next h' => ih i (h.1 i).1 h') hrun
    refine hchanges.mono (Set.iUnion_mono fun i => entryWrites_mono (fun i switch b entry => ?_) i)
    exact Set.inter_subset_left
  | tagged ir payload ih =>
    obtain ⟨k, p⟩ := p
    exact Changes.subrangeMut (p := payloadPlace ir payload k) hrun
      fun child hchild => ih k (h.1 k).1 hchild
  | unit =>
    obtain rfl := Option.some.inj hrun
    exact Changes.refl
  | array element n ih => exact commitLogical_changes (array element n) h hrun
  | optional align inner ih =>
    cases p with
    | none =>
      obtain rfl := Option.some.inj hrun
      exact changes_overwrite _
    | some p =>
      exact Changes.subrangeMut (p := presentPlace align inner) hrun
        fun child hchild => ih h.1 hchild

/-- The entries of a record change bytes of its value when each changes bytes of its field's. -/
theorem entryWrites_subset {ir : StructIr} {fields : Fin ir.arity → Category}
    (hlink : ir.Linked fields) {initializing : Bool} {b : Bytes (struct ir fields).wire.size}
    {p : (struct ir fields).Patch} {w : (struct ir fields).Logical}
    (hentry : ∀ i entry, (fields i).tagEnum = none → p i = some entry → ∀ switch,
      (fields i).patchWrites switch ((fieldPlace ir fields i).get b) entry ⊆
        (fields i).footprint (w i)) :
    (struct ir fields).patchWrites initializing b p ⊆ (struct ir fields).footprint w := by
  apply Set.iUnion_subset
  intro i
  cases hp : p i with
  | none => simp [entryWrites, hp]
  | some entry =>
    cases hi : (fields i).tagEnum with
    | some e =>
      have hskip : (fields i).tagEnum.isSome := by rw [hi]; rfl
      simp [entryWrites, hp, hskip]
    | none =>
      rw [entryWrites_eq hi hp]
      exact fieldChange_subset hlink (hentry i entry hi hp _)

/-- What a patch may change lies in the bytes of the value that it leaves. -/
theorem patchWrites_subset (c : Category) (h : c.Accepted) {initializing : Bool}
    {b : Bytes c.wire.size} {base : Option c.Logical} {p : c.Patch} {w : c.Logical}
    (hmerge : c.merge base p = some w) : c.patchWrites initializing b p ⊆ c.footprint w := by
  induction c generalizing initializing with
  | primitive | bool | fixedBytes | tagSibling | unit => exact subset_rfl
  | string s =>
    obtain rfl := Option.some.inj hmerge
    exact subset_rfl
  | scalarEnum ir =>
    cases p with
    | none => exact Set.empty_subset _
    | some v => exact subset_rfl
  | struct ir fields ih =>
    have hall := collect_eq_some.mp hmerge
    apply entryWrites_subset h.2.1
    intro i entry hi hp switch
    have hfield := hall i
    rw [mergeField_eq hi, hp] at hfield
    exact ih i (h.1 i).1 hfield
  | tagged ir payload ih =>
    obtain ⟨k, p⟩ := p
    obtain ⟨v, hv, rfl⟩ := Option.map_eq_some_iff.mp hmerge
    exact Cell.image_mono (ih k (h.1 k).1 hv)
  | array element n ih =>
    obtain rfl := Option.some.inj hmerge
    exact subset_rfl
  | optional align inner ih =>
    cases p with
    | none =>
      obtain rfl := Option.some.inj hmerge
      exact subset_rfl
    | some p =>
      obtain ⟨v, hv, rfl⟩ := Option.map_eq_some_iff.mp hmerge
      exact Cell.image_mono (ih h.1 hv)

end Category

end ZeroSchema
