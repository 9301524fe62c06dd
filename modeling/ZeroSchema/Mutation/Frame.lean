import ZeroSchema.Access.Prefix
import ZeroSchema.Mutation.Laws

/-! Frames: what a mutation through one handle leaves alone. The handle of a part selects a fixed
cell of the root's span, and a call keeps to its write set inside that cell. -/
namespace ZeroSchema
open Storage Control Input

section
variable [Target] {W F G : Layout}

/-- `lift` puts a part back into the cell that it was taken from. -/
structure Selects (cell : Cell W.size F.size) (input : Input W) (part : Input F)
    (lift : Input F → Input W) : Prop where
  bytes : part.bytes = cell.get input.bytes
  lift_bytes : ∀ x, (lift x).bytes = cell.put input.bytes x.bytes

/-- A part of a part. -/
theorem Selects.comp {outer : Cell W.size F.size} {inner : Cell F.size G.size} {input : Input W}
    {child : Input F} {part : Input G} {lift : Input F → Input W} {lift' : Input G → Input F}
    (h : Selects outer input child lift) (h' : Selects inner child part lift') :
    Selects (outer.comp inner) input part (lift ∘ lift') := by
  constructor
  · rw [h'.bytes, h.bytes, Cell.get_comp]
  · intro x
    rw [Function.comp_apply, h.lift_bytes, h'.lift_bytes, h.bytes, Cell.put_comp]

theorem Selects.whole (input : Input W) : Selects (Place.whole W).toCell input input id := by
  constructor
  · exact (Place.get_whole input.bytes).symm
  · intro x
    exact (Place.put_whole input.bytes x.bytes).symm

/-- A lifted state differs from the whole only where the part does. -/
theorem Selects.agree {cell : Cell W.size F.size} {input : Input W} {part : Input F}
    {lift : Input F → Input W} (h : Selects cell input part lift) {X : Set ℕ} {x : Input F}
    (hx : AgreeOn Bytes.view Xᶜ part.bytes x.bytes) :
    AgreeOn Bytes.view (cell.image X)ᶜ input.bytes (lift x).bytes := by
  rw [h.lift_bytes]
  rw [h.bytes] at hx
  exact Cell.agreeOn_put_image hx

/-- A checked subrange selects a cell at its offset. -/
theorem selects_subrange {input : Input W} {offset : ℕ} {child : Input F}
    (h : input.subrange F offset = .ok child) :
    ∃ cell : Cell W.size F.size, cell.offset = offset ∧
      Selects cell input child (input.release offset) := by
  unfold Input.subrange Input.subrangeBytes at h
  cases hrange : checkedRange W.size offset F.size with
  | error e =>
    rw [hrange] at h
    cases h
  | ok range =>
    rw [hrange] at h
    obtain rfl := checkedRange_eq_ok hrange
    have hchecked : Input.fromChecked F (input.slice range) = .ok child := h
    unfold Input.fromChecked at hchecked
    split_ifs at hchecked
    rw [← Except.ok.inj hchecked]
    refine ⟨range, rfl, rfl, fun x => ?_⟩
    rw [Input.release, Input.releaseBytes_cell]
    rfl

theorem session_of_child {input : Input W} {offset : ℕ} {prove : Input F → Outcome SchemaError Unit}
    {child : Input F} (hchild : provedChild input offset prove = some child)
    (run : Input F → Option (Trace (Input F) (Except SchemaError Unit))) :
    Category.session input offset prove run =
      (run child).map (Trace.within (input.release offset)) := by
  unfold Category.session
  rw [hchild]
  change (run child >>= _) = _
  cases run child <;> rfl

end

namespace Category
variable [Target]

/-- Where a position lies in the storage it starts from. -/
def Position.offset : {c d : Category} → Position c d → ℕ
  | _, _, here => 0
  | struct ir fields, _, field i _ rest => (fieldPlace ir fields i).offset + rest.offset
  | array item _, _, element index rest => index * item.wire.size + rest.offset
  | optional align inner, _, present rest => (presentPlace align inner).offset + rest.offset
  | tagged _ _, _, variant _ rest => rest.offset

/-- What is lent at a position is a cell at the position's offset, and the whole follows it. -/
def Position.Frames {c d : Category} (p : Position c d) (ctx : Context) (tag : ℕ)
    (input : Input c.wire) (part : Lent d) : Prop :=
  ∃ (cell : Cell c.wire.size d.wire.size) (lift : Input d.wire → Input c.wire),
    cell.offset = p.offset ∧ Selects cell input part.input lift ∧
    ∀ m, (p.wrap m).run ctx tag input =
      (m.run part.ctx part.tag part.input).map (Trace.within lift)

/-- A step on the way to a position. -/
theorem Position.Frames.step {c b d : Category} {p : Position c d} {rest : Position b d}
    {ctx ctx' : Context} {tag tag' : ℕ} {input : Input c.wire} {child : Input b.wire}
    {part : Lent d} {offset : ℕ} {prove : Input b.wire → Outcome SchemaError Unit}
    (hchild : provedChild input offset prove = some child)
    (hoffset : p.offset = offset + rest.offset)
    (hrun : ∀ m, (p.wrap m).run ctx tag input =
      session input offset prove ((rest.wrap m).run ctx' tag'))
    (h : rest.Frames ctx' tag' child part) : p.Frames ctx tag input part := by
  obtain ⟨outer, houter, hselects⟩ := selects_subrange (provedChild_eq_some.mp hchild).1
  obtain ⟨inner, lift, hinner, hselects', hrest⟩ := h
  refine ⟨outer.comp inner, input.release offset ∘ lift, ?_, hselects.comp hselects', fun m => ?_⟩
  · rw [hoffset, ← houter, ← hinner]
    rfl
  · rw [hrun, session_of_child hchild, hrest, Option.map_map]
    exact congrArg (Option.map · _) (funext fun trace => Trace.within_within trace)

theorem Position.lend_frames {c d : Category} (p : Position c d) {ctx : Context} {tag : ℕ}
    {input : Input c.wire} {part : Lent d} (hlent : p.lend ctx tag input = some (some part)) :
    p.Frames ctx tag input part := by
  induction p generalizing ctx tag with
  | @here c =>
    obtain rfl := Option.some.inj (Option.some.inj hlent)
    refine ⟨(Place.whole c.wire).toCell, id, rfl, Selects.whole input, fun m => ?_⟩
    have hid : Trace.within id = (id : Trace (Input c.wire) (Except SchemaError Unit) → _) :=
      funext fun trace => Trace.within_id trace
    rw [hid, Option.map_id]
    rfl
  | @field ir fields d i hi rest ih =>
    rw [lend] at hlent
    obtain ⟨tag', htag, hlent⟩ := Option.bind_eq_some_iff.mp hlent
    obtain ⟨child, hchild, hlent⟩ := Option.bind_eq_some_iff.mp hlent
    refine (ih hlent).step hchild rfl fun m => ?_
    rw [wrap, Mutation.run, htag]
    rfl
  | @element element n d index rest ih =>
    rw [lend] at hlent
    split_ifs at hlent with hlt
    · rw [checkedElementOffset_eq input ⟨index, hlt⟩] at hlent
      obtain ⟨_, hoffset, hlent⟩ := Option.bind_eq_some_iff.mp hlent
      obtain rfl := Option.some.inj hoffset
      obtain ⟨child, hchild, hlent⟩ := Option.bind_eq_some_iff.mp hlent
      refine (ih hlent).step hchild rfl fun m => ?_
      rw [wrap, Mutation.run, if_pos hlt, checkedElementOffset_eq input ⟨index, hlt⟩]
      rfl
    · cases hlent
  | @present align inner d rest ih =>
    rw [lend] at hlent
    split_ifs at hlent with hz
    · cases hlent
    · obtain ⟨child, hchild, hlent⟩ := Option.bind_eq_some_iff.mp hlent
      refine (ih hlent).step hchild rfl fun m => ?_
      rw [wrap, Mutation.run, if_neg hz]
  | @variant ir payload d k rest ih =>
    rw [lend, TaggedMut.accessor] at hlent
    split_ifs at hlent with hk
    · cases hchild : provedChild input 0 ((payload k).prove .root 0) with
      | none =>
        rw [hchild] at hlent
        cases hlent
      | some child =>
        rw [hchild] at hlent
        refine (ih hlent).step hchild (Nat.zero_add _).symm fun m => ?_
        rw [wrap, Mutation.run, if_pos hk]
    · cases hlent

/-- The bytes of a handle's storage that a call may change. -/
def Operation.writes : {c : Category} → Operation c → Bytes c.wire.size → Set ℕ
  | primitive p e, setScalar v, _ => (primitive p e).footprint v
  | bool, setBool v, _ => Category.bool.footprint v
  | scalarEnum ir, setEnum v, _ => (scalarEnum ir).footprint v
  | string s, setString v, _ => s.footprint v
  | string s, clearString, _ => Set.Iio s.wire.size
  | fixedBytes n, setBytes _, _ => Set.Iio n
  | array item n, setElement index v, _ =>
    if h : index < n then (elementPlace item ⟨index, h⟩).image (item.footprint v) else ∅
  | array item n, copyElements values, _ =>
    if values.length = n then
      ⋃ j : Fin n, (elementPlace item j).image ((values[(j : ℕ)]?).elim ∅ item.footprint)
    else ∅
  | optional align inner, setOptional v, _ => (optional align inner).footprint v
  | c, copyFrom _ p, b => c.patchWrites false b p
  | tagged ir payload, copyPayload p, b => (tagged ir payload).patchWrites false b p
  | struct ir fields, clear _, _ => Set.Iio (struct ir fields).wire.size

theorem twoPass_changes {W : Layout} {input out : Input W} {preflight : Outcome SchemaError Unit}
    {commit : Input W → Option (Input W)} {result : Except SchemaError Unit} {X : Set ℕ}
    (hrun : twoPass input preflight commit = some (result, out))
    (h : commit input = some out → Changes X input out) : Changes X input out := by
  cases result with
  | error e =>
    obtain rfl := twoPass_error hrun
    exact Changes.refl
  | ok u => exact h (twoPass_eq_ok.mp hrun).2

/-- Every call keeps to its write set. -/
theorem Operation.perform_changes {c : Category} (op : Operation c) (h : c.Accepted) {ctx : Context}
    {tag : ℕ} {input out : Input c.wire} {result : Except SchemaError Unit}
    (hrun : op.perform ctx tag input = some (result, out)) :
    Changes (op.writes input.bytes) input out := by
  cases op with
  | setScalar v | setBool v | setEnum v | setOptional v =>
    rw [perform] at hrun
    exact twoPass_changes hrun (commitLogical_changes _ h)
  | @setString s v =>
    rw [perform] at hrun
    exact twoPass_changes hrun s.commit_changes
  | clearString =>
    obtain rfl := congrArg Prod.snd (Option.some.inj hrun)
    exact changes_overwrite _
  | setBytes source =>
    rw [perform] at hrun
    refine twoPass_changes hrun fun hcommit => ?_
    split_ifs at hcommit
    obtain rfl := Option.some.inj hcommit
    exact changes_overwrite _
  | @setElement element n index v =>
    rw [perform, ArrayMut.set] at hrun
    rw [writes]
    split_ifs at hrun ⊢ with hlt
    · refine twoPass_changes hrun fun hcommit => ?_
      have heq := commitElement_eq ⟨index, hlt⟩ (element.commitLogical v false) input
      obtain ⟨child, hchild, rfl⟩ := Option.map_eq_some_iff.mp (heq.symm.trans hcommit)
      exact (commitLogical_changes element h.1 hchild).put
    · obtain rfl := congrArg Prod.snd (Option.some.inj hrun)
      exact Changes.refl
  | @copyElements element n values =>
    rw [perform, ArrayMut.copyFrom] at hrun
    rw [writes]
    split_ifs at hrun ⊢ with hlen
    · refine (twoPass_changes hrun (commitLogical_changes (array element n) h)).mono ?_
      apply Set.iUnion_mono
      intro j
      have hj : values[(j : ℕ)]? = some (values.get (j.cast hlen.symm)) := by simp
      rw [hj]
      exact subset_rfl
    · obtain rfl := congrArg Prod.snd (Option.some.inj hrun)
      exact Changes.refl
  | copyFrom path p =>
    rw [perform] at hrun
    rw [writes]
    exact twoPass_changes hrun (commitPatch_changes _ h)
  | @copyPayload ir payload p =>
    rw [perform, TaggedMut.copyFrom] at hrun
    split_ifs at hrun
    · obtain rfl := congrArg Prod.snd (Option.some.inj hrun)
      exact Changes.refl
    · exact twoPass_changes hrun (commitPatch_changes _ h)
  | clear gate =>
    obtain rfl := congrArg Prod.snd (Option.some.inj hrun)
    exact changes_overwrite _

section Record
variable {ir : StructIr} {fields : Fin ir.arity → Category} {i j t : Fin ir.arity}
  {input out : Input (struct ir fields).wire}

/-- The value that the getter of a field returns. -/
def fieldGetter (input : Input (struct ir fields).wire) (i : Fin ir.arity) :
    Option (fields i).Logical :=
  materializeField ir fields (fun i => materialize (fields i)) input i

/-- A getter looks at its field and at its field's tag. -/
theorem fieldGetter_congr
    (hchild : out.child (fieldPlace ir fields j) = input.child (fieldPlace ir fields j))
    (htag : tagAt ir fields out.bytes j = tagAt ir fields input.bytes j) :
    fieldGetter out j = fieldGetter input j := by
  unfold fieldGetter materializeField
  rw [siblingTag_proved, siblingTag_proved, htag, selectField_eq, selectField_eq, hchild]

/-- And so does every handle behind the field. -/
theorem Position.lend_field_congr {d : Category} {hj : (fields j).tagEnum = none}
    (rest : Position (fields j) d) (ctx : Context) (tag : ℕ)
    (hchild : out.child (fieldPlace ir fields j) = input.child (fieldPlace ir fields j))
    (htag : tagAt ir fields out.bytes j = tagAt ir fields input.bytes j) :
    (Position.field j hj rest).lend ctx tag out = (Position.field j hj rest).lend ctx tag input := by
  rw [lend, lend, siblingTag_proved, siblingTag_proved, htag]
  unfold provedChild
  rw [Input.subrange_place, Input.subrange_place, hchild]

theorem child_put_field (hji : j ≠ i) (x : Bytes (fields i).wire.size) :
    (input.put (fieldPlace ir fields i).toCell x).child (fieldPlace ir fields j) =
      input.child (fieldPlace ir fields j) :=
  Input.ext rfl (Cell.get_put_of_disjoint (fieldPlace_disjoint ir fields hji) input.bytes x)

/-- Whatever is done through a field, the storage differs in the field's value at most. -/
theorem run_field_put {hi : (fields i).tagEnum = none} {m : Mutation (fields i)} {ctx : Context}
    {tag : ℕ} {trace : Trace (Input (struct ir fields).wire) (Except SchemaError Unit)}
    (hrun : (Mutation.field i hi m).run ctx tag input = some trace) :
    ∀ a ∈ trace, ∃ x, a.2 = input.put (fieldPlace ir fields i).toCell x := by
  rw [Mutation.run] at hrun
  obtain ⟨tag', -, hrun⟩ := Option.bind_eq_some_iff.mp hrun
  obtain ⟨child, -, hrun⟩ := Option.bind_eq_some_iff.mp hrun
  obtain ⟨inner, -, hrun⟩ := Option.bind_eq_some_iff.mp hrun
  obtain rfl := Option.some.inj hrun
  intro a ha
  obtain ⟨b, -, rfl⟩ := List.mem_map.mp ha
  exact ⟨b.2.bytes, input.release_place (fieldPlace ir fields i) b.2⟩

/-- A record patch leaves a field's bytes alone when it has no entry for the field and does not
switch a payload whose tag the field is. -/
theorem get_of_patch (h : (struct ir fields).Accepted) {p : (struct ir fields).Patch}
    (hrun : (struct ir fields).commitPatch p false input = some out)
    (hfree : ∀ i, (fields i).tagEnum = none → ∀ entry, p i = some entry →
      i ≠ t ∧ (ir.tagField i = some t →
        switches ir fields false input.bytes i ((fields i).patchTag entry) = false)) :
    out.child (fieldPlace ir fields t) = input.child (fieldPlace ir fields t) := by
  have hloop : foldEach ir.arity
      (commitPatchField ir fields (fun i => commitPatch (fields i)) false p) input = some out := hrun
  have hcommit (i : Fin ir.arity) (entry : (fields i).Patch) (switch : Bool)
      (child next : Input (fields i).wire)
      (hnext : commitPatch (fields i) entry switch child = some next) :
      Changes ((fields i).patchWrites switch child.bytes entry) child next :=
    commitPatch_changes (fields i) (h.1 i).1 hnext
  have hentries := changes_entries h.2.1
    hcommit hloop
  rw [changes_iff] at hentries
  have haddress : out.address = input.address := hentries.1
  refine Input.ext (congrArg (· + _) haddress) (Cell.get_congr fun k hk => hentries.2 k ?_)
  intro hmem
  obtain ⟨i, hki⟩ := Set.mem_iUnion.mp hmem
  cases hp : p i with
  | none =>
    unfold entryWrites at hki
    rw [hp] at hki
    exact hki
  | some entry =>
    cases hi : (fields i).tagEnum with
    | some e =>
      have hskip : (fields i).tagEnum.isSome := by rw [hi]; rfl
      unfold entryWrites at hki
      simp [hp, hskip] at hki
    | none =>
      obtain ⟨hne, hswitch⟩ := hfree i hi entry hp
      rw [entryWrites_eq hi hp] at hki
      rcases hki with hki | hki
      · have hregion := (fieldPlace ir fields i).image_subset_region Set.inter_subset_right hki
        exact Set.disjoint_left.mp (fieldPlace_disjoint ir fields hne) hregion hk
      · cases hs : ir.tagField i with
        | none =>
          rw [hs] at hki
          exact hki
        | some s =>
          rw [hs] at hki
          by_cases hst : s = t
          · subst hst
            simp [hswitch hs] at hki
          · have hregion : k ∈ (fieldPlace ir fields s).region := by
              simp only at hki
              split_ifs at hki
              · exact hki
              · exact hki.elim
            exact Set.disjoint_left.mp (fieldPlace_disjoint ir fields hst) hregion hk

/-- A patch shows in the getters of the fields that it has an entry for, and in those of the tags
of the payloads that it switches. -/
theorem fieldGetter_of_patch (h : (struct ir fields).Accepted) {p : (struct ir fields).Patch}
    (hrun : (struct ir fields).commitPatch p false input = some out) (hnone : p t = none)
    (howner : ∀ i, ir.tagField i = some t → ∀ entry, p i = some entry →
      tagAt ir fields input.bytes i = some ((fields i).patchTag entry)) :
    fieldGetter out t = fieldGetter input t := by
  have hfree (i : Fin ir.arity) (hi : i ≠ t) (entry : (fields i).Patch) (hp : p i = some entry)
      (s : Fin ir.arity) (hs : ir.tagField i = some s)
      (htag : tagAt ir fields input.bytes i = some ((fields i).patchTag entry)) :
      switches ir fields false input.bytes i ((fields i).patchTag entry) = false := by
    simp [switches, hs, htag]
  have hself : out.child (fieldPlace ir fields t) = input.child (fieldPlace ir fields t) := by
    apply get_of_patch h hrun
    intro i _ entry hp
    have hit : i ≠ t := by
      rintro rfl
      rw [hnone] at hp
      cases hp
    exact ⟨hit, fun hs => hfree i hit entry hp t hs (howner i hs entry hp)⟩
  apply fieldGetter_congr hself
  cases ht : ir.tagField t with
  | none => rw [tagAt_of_none ht, tagAt_of_none ht]
  | some s =>
    -- no entry of another field writes the tag that selects this one
    have htag : out.child (fieldPlace ir fields s) = input.child (fieldPlace ir fields s) := by
      apply get_of_patch h hrun
      intro i hi entry hp
      have hit : i ≠ t := by
        rintro rfl
        rw [hnone] at hp
        cases hp
      have his : i ≠ s := by
        rintro rfl
        have hsome := h.2.1.tagEnum_isSome ht
        rw [hi] at hsome
        cases hsome
      exact ⟨his, fun hs => absurd (h.2.1.unique i t s hs ht) hit⟩
    rw [tagAt_of_link ht, tagAt_of_link ht]
    exact congrArg _ (congrArg Input.bytes htag)

end Record

/-- Whatever is done through an element, the storage differs in the element at most. -/
theorem run_element_put {element : Category} {n index : ℕ} {m : Mutation element} {ctx : Context}
    {tag : ℕ} {input : Input (array element n).wire}
    {trace : Trace (Input (array element n).wire) (Except SchemaError Unit)}
    (hrun : (Mutation.element index m).run ctx tag input = some trace) :
    ∀ a ∈ trace, ∃ (j : Fin n) (x : Bytes element.wire.size),
      (j : ℕ) = index ∧ a.2 = input.put (elementPlace element j).toCell x := by
  rw [Mutation.run] at hrun
  split_ifs at hrun with hlt
  · rw [checkedElementOffset_eq input ⟨index, hlt⟩] at hrun
    obtain ⟨_, hoffset, hrun⟩ := Option.bind_eq_some_iff.mp hrun
    obtain rfl := Option.some.inj hoffset
    obtain ⟨child, -, hrun⟩ := Option.bind_eq_some_iff.mp hrun
    obtain ⟨inner, -, hrun⟩ := Option.bind_eq_some_iff.mp hrun
    obtain rfl := Option.some.inj hrun
    intro a ha
    obtain ⟨b, -, rfl⟩ := List.mem_map.mp ha
    exact ⟨⟨index, hlt⟩, b.2.bytes, rfl, input.release_place (elementPlace element ⟨index, hlt⟩) b.2⟩
  · obtain rfl := Option.some.inj hrun
    simp

/-- What lies behind the other elements is as it was. -/
theorem Position.lend_element_congr {element d : Category} {n index : ℕ} {j : Fin n}
    (hne : index ≠ j) (rest : Position element d) (ctx : Context) (tag : ℕ)
    {input : Input (array element n).wire} (x : Bytes element.wire.size) :
    (Position.element index rest).lend ctx tag (input.put (elementPlace element j).toCell x) =
      (Position.element index rest).lend ctx tag input := by
  rw [lend, lend]
  split_ifs with hlt
  · have hne' : (⟨index, hlt⟩ : Fin n) ≠ j := fun heq => hne (congrArg Fin.val heq)
    have hchild : (input.put (elementPlace element j).toCell x).child
        (elementPlace element ⟨index, hlt⟩) = input.child (elementPlace element ⟨index, hlt⟩) :=
      Input.ext rfl (Cell.get_put_of_disjoint (elementPlace_disjoint element hne') input.bytes x)
    rw [checkedElementOffset_eq input ⟨index, hlt⟩]
    unfold provedChild
    change ((input.put (elementPlace element j).toCell x).subrange _
      (elementPlace element ⟨index, hlt⟩).offset).toOption.bind _ >>= _ =
      (input.subrange _ (elementPlace element ⟨index, hlt⟩).offset).toOption.bind _ >>= _
    rw [Input.subrange_place, Input.subrange_place, hchild]
  · rfl

/-- A program that works at a position keeps to the storage there. -/
theorem Position.run_agree {c d : Category} (p : Position c d) {m : Mutation d} {ctx : Context}
    {tag : ℕ} {input : Input c.wire} {trace : Trace (Input c.wire) (Except SchemaError Unit)}
    (hrun : (p.wrap m).run ctx tag input = some trace) :
    ∀ a ∈ trace, AgreeOn Bytes.view (Set.Ico p.offset (p.offset + d.wire.size))ᶜ
      input.bytes a.2.bytes := by
  rcases p.reaches ctx tag input with ⟨-, hnone⟩ | ⟨-, hempty⟩ | ⟨part, _, hlent, -, -⟩
  · cases hrun.symm.trans (hnone m)
  · obtain rfl := Option.some.inj (hrun.symm.trans (hempty m))
    simp
  · obtain ⟨cell, lift, hoffset, hselects, hwrap⟩ := p.lend_frames hlent
    rw [hwrap] at hrun
    obtain ⟨inner, -, rfl⟩ := Option.map_eq_some_iff.mp hrun
    intro a ha
    obtain ⟨b, -, rfl⟩ := List.mem_map.mp ha
    have hagree := hselects.agree (Bytes.agreeOn_past part.input.bytes b.2.bytes)
    rw [Cell.image_Iio, Cell.region, hoffset] at hagree
    exact hagree

/-- A call at a position keeps to its write set there. -/
theorem Position.call_agree {c d : Category} (p : Position c d) {op : Operation d} {ctx : Context}
    {tag : ℕ} {input out : Input c.wire} {part : Lent d} {result : Except SchemaError Unit}
    (hlent : p.lend ctx tag input = some (some part)) (hacc : d.Accepted)
    (hrun : (p.wrap (.call op)).run ctx tag input = some [(result, out)]) :
    AgreeOn Bytes.view ((p.offset + ·) '' op.writes part.input.bytes)ᶜ input.bytes out.bytes := by
  obtain ⟨cell, lift, hoffset, hselects, hwrap⟩ := p.lend_frames hlent
  rw [hwrap, Mutation.run] at hrun
  cases hcall : op.perform part.ctx part.tag part.input with
  | none =>
    rw [hcall] at hrun
    cases hrun
  | some answer =>
    rw [hcall] at hrun
    have hanswer : (answer.1, lift answer.2) = (result, out) :=
      List.cons.inj (Option.some.inj hrun) |>.1
    obtain rfl : lift answer.2 = out := congrArg Prod.snd hanswer
    have hagree := hselects.agree (changes_iff.mp (op.perform_changes hacc hcall)).2
    unfold Cell.image at hagree
    rw [hoffset] at hagree
    exact hagree

end Category

open Category

namespace Schema

/-- What a mutation of a valid root leaves alone. -/
structure Framed [Target] (S : Schema) (input : Input S.wire) : Prop where
  /-- A program that works through one handle keeps to the storage of the handle. -/
  span : ∀ c (p : Position S.category c) (m : Mutation c) trace,
    (p.wrap m).run .root 0 input = some trace → ∀ a ∈ trace,
      AgreeOn Bytes.view (Set.Ico p.offset (p.offset + c.wire.size))ᶜ input.bytes a.2.bytes
  /-- A call keeps to its write set inside of the storage. -/
  call : ∀ c (p : Position S.category c) (op : Operation c) part result out,
    p.lend .root 0 input = some (some part) →
    (p.wrap (.call op)).run .root 0 input = some [(result, out)] →
      AgreeOn Bytes.view ((p.offset + ·) '' op.writes part.input.bytes)ᶜ input.bytes out.bytes
  /-- Whatever is done through a field of any record, the getters of the other fields and the
  handles behind them are as before. -/
  siblings : ∀ ir fields (p : Position S.category (struct ir fields)) part i hi
    (m : Mutation (fields i)) trace, p.lend .root 0 input = some (some part) →
    (Mutation.field i hi m).run part.ctx part.tag part.input = some trace → ∀ a ∈ trace,
    ∀ j, j ≠ i → fieldGetter a.2 j = fieldGetter part.input j ∧
      ∀ hj d (rest : Position (fields j) d),
        (Position.field j hj rest).lend part.ctx part.tag a.2 =
          (Position.field j hj rest).lend part.ctx part.tag part.input
  /-- And so are the other elements of an array. -/
  elements : ∀ element n (p : Position S.category (array element n)) part index
    (m : Mutation element) trace, p.lend .root 0 input = some (some part) →
    (Mutation.element index m).run part.ctx part.tag part.input = some trace → ∀ a ∈ trace,
    ∀ index', index' ≠ index → ∀ d (rest : Position element d),
      (Position.element index' rest).lend part.ctx part.tag a.2 =
        (Position.element index' rest).lend part.ctx part.tag part.input
  /-- A record patch shows in no getter of a field without an entry, unless the field is the tag of
  a payload that the patch switches. -/
  patch : ∀ ir fields (p : Position S.category (struct ir fields)) part
    (entries : (struct ir fields).Patch) out, p.lend .root 0 input = some (some part) →
    copyFrom (struct ir fields) part.ctx part.input entries = some (.ok (), out) →
    ∀ t, entries t = none →
      (∀ i, ir.tagField i = some t → ∀ entry, entries i = some entry →
        tagAt ir fields part.input.bytes i = some ((fields i).patchTag entry)) →
      fieldGetter out t = fieldGetter part.input t

/-- A mutation through a handle at any depth changes at most the bytes of its write set, which lies
in the storage of the handle; every other field, and every byte behind the root, is as before. -/
theorem mutations_are_framed [Target] (S : Schema) {n : ℕ} (s : Slice n) :
    (∀ input : Input S.wire, S.accessMut s = .ok input → S.Framed input) ∧
    ∀ (h : S.wire.size ≤ n) (m : Mutation S.category) result after,
      S.sessionMutPrefix s m = some (result, after) → after.drop h = s.drop h := by
  refine ⟨fun input haccess => ?_, fun h m result after => sessionMutPrefix_drop h⟩
  have hvalid := valid_of_accessMut haccess
  constructor
  case span =>
    intro c p m trace hrun
    exact p.run_agree hrun
  case call =>
    intro c p op part result out hlent hrun
    have hacc := (p.lend_valid S.accepted (fun _ => rfl) hvalid hlent).1
    exact p.call_agree hlent hacc hrun
  case siblings =>
    intro ir fields p part i hi m trace hlent hrun a ha j hji
    have hacc := (p.lend_valid S.accepted (fun _ => rfl) hvalid hlent).1
    obtain ⟨x, hx⟩ := run_field_put hrun a ha
    rw [hx]
    have hchild : (part.input.put (fieldPlace ir fields i).toCell x).child (fieldPlace ir fields j) =
        part.input.child (fieldPlace ir fields j) := child_put_field hji x
    have htag : tagAt ir fields (part.input.put (fieldPlace ir fields i).toCell x).bytes j =
        tagAt ir fields part.input.bytes j := tagAt_put hacc.2.1 hi j
    exact ⟨fieldGetter_congr hchild htag, fun hj d rest =>
      rest.lend_field_congr part.ctx part.tag hchild htag⟩
  case elements =>
    intro element n p part index m trace hlent hrun a ha index' hne d rest
    obtain ⟨j, x, rfl, hx⟩ := run_element_put hrun a ha
    rw [hx]
    exact Position.lend_element_congr hne rest part.ctx part.tag x
  case patch =>
    intro ir fields p part entries out hlent hrun t hnone howner
    obtain ⟨hacc, hfree, hpart⟩ := p.lend_valid S.accepted (fun _ => rfl) hvalid hlent
    rw [hfree rfl] at hpart
    rw [copyFrom_eq hpart] at hrun
    exact fieldGetter_of_patch hacc (twoPass_eq_ok.mp hrun).2 hnone howner

section
attribute [local instance] Target.lp64

theorem mutations_are_framed_envelope : envelope.Framed readingEnvelope :=
  (mutations_are_framed envelope _).1 readingEnvelope (accessMut_of_valid valid_readingEnvelope)

/-- Switching the message writes the kind, too, and leaves the mode. -/
example : (copyFrom envelope.category .root readingEnvelope
    (eachField none (some ⟨firstVariant, ()⟩) none)).map (fun answer => answer.2.bytes.toList) =
    some [0, 0, 0, 0, 5, 0, 0, 0, 2, 0, 0, 0] := rfl

end

end Schema

end ZeroSchema
