import ZeroSchema.Mutation.Laws

/-! Record patches taken apart: the entries of a patch that applies can be applied one at a time,
in any order, and leave the same bytes. -/
namespace ZeroSchema
open Storage Control Input

namespace Category
variable [Target]

section Record
variable {ir : StructIr} {fields : Fin ir.arity → Category}

/-- The part of a patch that is about one field. The entry of a payload goes with its tag's. -/
def entryOf (p : (struct ir fields).Patch) (i : Fin ir.arity) : (struct ir fields).Patch :=
  fun j => if j = i ∨ ir.tagField i = some j then p j else none

/-- Applies the entries for the given fields one after the other; every call has to succeed. -/
def copyEach (ctx : Context) (p : (struct ir fields).Patch) :
    List (Fin ir.arity) → Input (struct ir fields).wire → Option (Input (struct ir fields).wire)
  | [], input => some input
  | i :: rest, input =>
    match ZeroSchema.copyFrom (struct ir fields) ctx input (entryOf p i) with
    | some (.ok (), out) => copyEach ctx p rest out
    | _ => none

/-- The value between: the fields that were written, and their tags, hold what they are to. -/
def stage (v w : (struct ir fields).Logical) (done : List (Fin ir.arity)) :
    (struct ir fields).Logical :=
  fun j => if j ∈ done ∨ ∃ i ∈ done, ir.tagField i = some j then w j else v j

variable {v w : (struct ir fields).Logical} {p : (struct ir fields).Patch}
  {done : List (Fin ir.arity)} {i : Fin ir.arity}

omit [Target] in
theorem entryOf_self : entryOf p i i = p i := if_pos (Or.inl rfl)

omit [Target] in
/-- Besides the field's own entry there is at most the one of its tag. -/
theorem entryOf_eq_some {j : Fin ir.arity} {entry : (fields j).Patch}
    (h : entryOf p i j = some entry) : (j = i ∨ ir.tagField i = some j) ∧ p j = some entry := by
  unfold entryOf at h
  split_ifs at h with hj
  exact ⟨hj, h⟩

omit [Target] in
theorem stage_field (hlink : ir.Linked fields) {j : Fin ir.arity} (hj : (fields j).tagEnum = none) :
    stage v w done j = if j ∈ done then w j else v j := by
  have hnone : ¬∃ i ∈ done, ir.tagField i = some j := by
    rintro ⟨i, -, hi⟩
    have hsome := hlink.tagEnum_isSome hi
    rw [hj] at hsome
    cases hsome
  simp only [stage, hnone, or_false]

omit [Target] in
/-- A tag is what it is to be as soon as its payload is. -/
theorem stage_sibling (hlink : ir.Linked fields) (hdone : ∀ i ∈ done, (fields i).tagEnum = none)
    {t owner : Fin ir.arity} (ht : ir.tagField owner = some t) :
    stage v w done t = if owner ∈ done then w t else v t := by
  have hnot : t ∉ done := by
    intro hmem
    have hsome := hlink.tagEnum_isSome ht
    rw [hdone t hmem] at hsome
    cases hsome
  have howner : (∃ i ∈ done, ir.tagField i = some t) ↔ owner ∈ done := by
    constructor
    · rintro ⟨i, hi, hit⟩
      rwa [← hlink.unique i owner t hit ht]
    · intro hmem
      exact ⟨owner, hmem, ht⟩
  simp only [stage, hnot, false_or, howner]

omit [Target] in
/-- Merging one entry goes to the next stage. -/
theorem merge_entryOf (h : ir.Linked fields) (hmerge : (struct ir fields).merge (some v) p = some w)
    (hdone : ∀ i ∈ done, (fields i).tagEnum = none) (hi : (fields i).tagEnum = none)
    (hpresent : (p i).isSome) (hnew : i ∉ done) :
    (struct ir fields).merge (some (stage v w done)) (entryOf p i) =
      some (stage v w (i :: done)) := by
  have hall := collect_eq_some.mp hmerge
  have hdone' : ∀ j ∈ i :: done, (fields j).tagEnum = none := List.forall_mem_cons.mpr ⟨hi, hdone⟩
  obtain ⟨entry, hentry⟩ := Option.isSome_iff_exists.mp hpresent
  refine collect_eq_some.mpr fun j => ?_
  cases hj : (fields j).tagEnum with
  | none =>
    rw [mergeField_eq hj, stage_field h hj]
    by_cases hji : j = i
    · subst hji
      have hfield := hall j
      rw [mergeField_eq hj, hentry] at hfield
      simp only [entryOf_self, hentry, Option.map_some, stage_field h hj, if_neg hnew,
        List.mem_cons_self, if_true]
      exact hfield
    · have hnone : entryOf p i j = none := by
        refine if_neg ?_
        rintro (heq | htag)
        · exact hji heq
        · have hsome := h.tagEnum_isSome htag
          rw [hj] at hsome
          cases hsome
      simp only [hnone, Option.map_some, stage_field h hj, List.mem_cons, hji, false_or]
  | some e =>
    obtain ⟨owner, howner⟩ := h.owner j (by rw [hj]; rfl)
    rw [mergeField_sibling h howner, stage_sibling h hdone' howner]
    by_cases hoi : owner = i
    · subst hoi
      have hfield := hall j
      rw [mergeField_sibling h howner, hentry] at hfield
      simp only [entryOf_self, hentry, List.mem_cons_self, if_true]
      exact hfield
    · have hnone : entryOf p i owner = none := by
        refine if_neg ?_
        rintro (heq | htag)
        · exact hoi heq
        · have hsome := h.tagEnum_isSome htag
          rw [h.tagEnum_eq_none howner] at hsome
          cases hsome
      simp only [hnone, Option.map_some, stage_sibling h hdone howner, List.mem_cons, hoi, false_or]

omit [Target] in
/-- A part of a patch fits where the patch does. -/
theorem patchFits_entryOf (hlink : ir.Linked fields) (hi : (fields i).tagEnum = none)
    (hfits : (struct ir fields).PatchFits p) : (struct ir fields).PatchFits (entryOf p i) := by
  constructor
  · intro owner t ht tag htag
    obtain ⟨hcases, hpt⟩ := entryOf_eq_some htag
    have hit : ir.tagField i = some t := by
      rcases hcases with rfl | hit
      · have hsome := hlink.tagEnum_isSome ht
        rw [hi] at hsome
        cases hsome
      · exact hit
    obtain rfl := hlink.unique i owner t hit ht
    obtain ⟨entry, hentry, heq⟩ := hfits.1 i t ht tag hpt
    exact ⟨entry, by rw [entryOf_self, hentry], heq⟩
  · intro j entry hentry
    exact hfits.2 j entry (entryOf_eq_some hentry).2

omit [Target] in
theorem suffices_entryOf (hlink : ir.Linked fields) (hi : (fields i).tagEnum = none)
    (hsuffices : (struct ir fields).Suffices (some v) p) (hnew : i ∉ done) :
    (struct ir fields).Suffices (some (stage v w done)) (entryOf p i) := by
  intro j entry hentry
  obtain ⟨hcases, hpj⟩ := entryOf_eq_some hentry
  rcases hcases with rfl | hit
  · have hfield := hsuffices j entry hpj
    rwa [Option.map_some, stage_field hlink hi, if_neg hnew]
  · exact suffices_sibling (hlink.tagEnum_isSome hit) _ entry

/-- One entry is written from one stage to the next. -/
theorem copyEntry_spec (h : (struct ir fields).Accepted) (hd : (struct ir fields).DistinctTags)
    (ctx : Context) {input : Input (struct ir fields).wire}
    (hfits : (struct ir fields).PatchFits p) (hsuffices : (struct ir fields).Suffices (some v) p)
    (hmerge : (struct ir fields).merge (some v) p = some w)
    (hdone : ∀ i ∈ done, (fields i).tagEnum = none) (hi : (fields i).tagEnum = none)
    (hpresent : (p i).isSome) (hnew : i ∉ done)
    (hrep : (struct ir fields).Represents 0 input.bytes (stage v w done)) :
    ∃ out, ZeroSchema.copyFrom (struct ir fields) ctx input (entryOf p i) = some (.ok (), out) ∧
      (struct ir fields).Represents 0 out.bytes (stage v w (i :: done)) ∧
      Changes ((struct ir fields).footprint w) input out := by
  have hstart : (struct ir fields).Start false 0 input.bytes (some (stage v w done)) :=
    ⟨_, rfl, hrep⟩
  have hpre : (struct ir fields).preflightPatch false ctx 0 input (entryOf p i) = .ok () :=
    (preflightPatch_eq_ok _ h hd hstart).mpr
      ⟨patchFits_entryOf h.2.1 hi hfits, suffices_entryOf h.2.1 hi hsuffices hnew⟩
  obtain ⟨u, out, hu, hcommit, hout⟩ := commitPatch_spec _ h hd false input
    (hstart.base Bool.noConfusion) (fun _ => rfl) hpre
  obtain rfl := Option.some.inj ((merge_entryOf h.2.1 hmerge hdone hi hpresent hnew).symm.trans hu)
  refine ⟨out, ?_, hout, ?_⟩
  · rw [copyFrom_eq hrep.valid]
    exact twoPass_eq_ok.mpr ⟨hpre, hcommit⟩
  · have hwrites := commitPatch_changes _ h hcommit
    refine hwrites.mono (entryWrites_subset h.2.1 fun j entry hj hentry switch => ?_)
    have hfield := collect_eq_some.mp hmerge j
    rw [mergeField_eq hj, (entryOf_eq_some hentry).2] at hfield
    exact patchWrites_subset (fields j) (h.1 j).1 hfield

/-- The entries for any further fields go from stage to stage. -/
theorem copyEach_spec (h : (struct ir fields).Accepted) (hd : (struct ir fields).DistinctTags)
    (ctx : Context) {input : Input (struct ir fields).wire}
    (hfits : (struct ir fields).PatchFits p) (hsuffices : (struct ir fields).Suffices (some v) p)
    (hmerge : (struct ir fields).merge (some v) p = some w) {order : List (Fin ir.arity)}
    (hnodup : order.Nodup) (hdone : ∀ i ∈ done, (fields i).tagEnum = none)
    (horder : ∀ i ∈ order, (fields i).tagEnum = none ∧ (p i).isSome ∧ i ∉ done)
    (hrep : (struct ir fields).Represents 0 input.bytes (stage v w done)) :
    ∃ out, copyEach ctx p order input = some out ∧
      (struct ir fields).Represents 0 out.bytes (stage v w (order.reverse ++ done)) ∧
      Changes ((struct ir fields).footprint w) input out := by
  induction order generalizing done input with
  | nil => exact ⟨input, rfl, hrep, Changes.refl⟩
  | cons i rest ih =>
    obtain ⟨hirest, hnodup⟩ := List.nodup_cons.mp hnodup
    obtain ⟨⟨hi, hpresent, hnew⟩, hrest⟩ := List.forall_mem_cons.mp horder
    obtain ⟨next, hstep, hnext, hchanges⟩ :=
      copyEntry_spec h hd ctx hfits hsuffices hmerge hdone hi hpresent hnew hrep
    have hdone' : ∀ j ∈ i :: done, (fields j).tagEnum = none := List.forall_mem_cons.mpr ⟨hi, hdone⟩
    have hrest' : ∀ j ∈ rest, (fields j).tagEnum = none ∧ (p j).isSome ∧ j ∉ i :: done := by
      intro j hj
      obtain ⟨hjs, hjp, hjd⟩ := hrest j hj
      refine ⟨hjs, hjp, fun hmem => ?_⟩
      rcases List.mem_cons.mp hmem with rfl | hmem
      · exact hirest hj
      · exact hjd hmem
    obtain ⟨out, hrun, hout, hchanges'⟩ := ih hnodup hdone' hrest' hnext
    refine ⟨out, ?_, ?_, hchanges.trans hchanges'⟩
    · rw [copyEach, hstep]
      exact hrun
    · rwa [List.reverse_cons, List.append_assoc]

omit [Target] in
/-- The last stage is the merged value. -/
theorem stage_all (hlink : ir.Linked fields)
    (hmerge : (struct ir fields).merge (some v) p = some w)
    (hdone : ∀ i, i ∈ done ↔ (p i).isSome ∧ (fields i).tagEnum = none) : stage v w done = w := by
  have hall := collect_eq_some.mp hmerge
  have hsibling : ∀ i ∈ done, (fields i).tagEnum = none := fun i hi => ((hdone i).mp hi).2
  funext j
  have hfield := hall j
  cases hj : (fields j).tagEnum with
  | none =>
    rw [stage_field hlink hj]
    split_ifs with hmem
    · rfl
    · have hp : p j = none := by
        rw [← Option.not_isSome_iff_eq_none]
        exact fun hp => hmem ((hdone j).mpr ⟨hp, hj⟩)
      rw [mergeField_eq hj, hp] at hfield
      exact Option.some.inj hfield
  | some e =>
    obtain ⟨owner, howner⟩ := hlink.owner j (by rw [hj]; rfl)
    rw [stage_sibling hlink hsibling howner]
    split_ifs with hmem
    · rfl
    · have hp : p owner = none := by
        rw [← Option.not_isSome_iff_eq_none]
        exact fun hp => hmem ((hdone owner).mpr ⟨hp, hlink.tagEnum_eq_none howner⟩)
      rw [mergeField_sibling hlink howner, hp] at hfield
      exact Option.some.inj hfield

/-- The entries of an applied patch can be applied one at a time in any order. -/
theorem copyEach_eq (h : (struct ir fields).Accepted) (hd : (struct ir fields).DistinctTags)
    {ctx : Context} {input out : Input (struct ir fields).wire}
    (hvalid : (struct ir fields).Valid 0 input.bytes)
    (hok : ZeroSchema.copyFrom (struct ir fields) ctx input p = some (.ok (), out))
    {order : List (Fin ir.arity)} (hnodup : order.Nodup)
    (horder : ∀ i, i ∈ order ↔ (p i).isSome ∧ (fields i).tagEnum = none) :
    copyEach ctx p order input = some out := by
  obtain ⟨v, hv⟩ := ((struct ir fields).valid_iff 0 input).mp hvalid
  have hstart : (struct ir fields).Start false 0 input.bytes (some v) := ⟨v, rfl, hv⟩
  rw [copyFrom_eq hvalid] at hok
  obtain ⟨hpre, hcommit⟩ := twoPass_eq_ok.mp hok
  obtain ⟨hfits, hsuffices⟩ := (preflightPatch_eq_ok _ h hd hstart).mp hpre
  obtain ⟨w, out', hmerge, hcommit', hrep, hchanges⟩ :=
    commitPatch_determines _ h hd (hstart.base Bool.noConfusion) (fun _ => rfl) hpre
  obtain rfl : out' = out := Option.some.inj (hcommit'.symm.trans hcommit)
  have hfirst : stage v w [] = v := by
    funext j
    exact if_neg (by simp)
  obtain ⟨last, hrun, hlast, hchanges'⟩ := copyEach_spec h hd ctx hfits hsuffices hmerge hnodup
    (by simp) (fun i hi => ⟨((horder i).mp hi).2, ((horder i).mp hi).1, List.not_mem_nil⟩)
    (hfirst.symm ▸ hv)
  have hstage : stage v w (order.reverse ++ []) = w := by
    apply stage_all h.2.1 hmerge
    intro i
    rw [List.append_nil, List.mem_reverse, horder]
  rw [hstage] at hlast
  rw [hrun, eq_of_changes _ h hchanges hchanges' hrep hlast]

end Record

end Category

open Category

namespace Schema

/-- Where the tags of every payload declaration are distinct, the entries of a record patch that
applies can be applied one at a time, in any order: every one is accepted, and together they leave
the same bytes. -/
theorem patches_decompose [Target] (S : Schema) (hd : S.category.DistinctTags) {n : ℕ} (s : Slice n)
    {input : Input S.wire} (haccess : S.accessMut s = .ok input) {ir : StructIr}
    {fields : Fin ir.arity → Category} (pos : Position S.category (struct ir fields))
    {part : Lent (struct ir fields)} (hlent : pos.lend .root 0 input = some (some part))
    {p : (struct ir fields).Patch} {out : Input (struct ir fields).wire}
    (hok : copyFrom (struct ir fields) part.ctx part.input p = some (.ok (), out))
    {order : List (Fin ir.arity)} (hnodup : order.Nodup)
    (horder : ∀ i, i ∈ order ↔ (p i).isSome ∧ (fields i).tagEnum = none) :
    copyEach part.ctx p order part.input = some out := by
  have hvalid := valid_of_accessMut haccess
  obtain ⟨hacc, hfree, hpart⟩ := pos.lend_valid S.accepted (fun _ => rfl) hvalid hlent
  rw [hfree rfl] at hpart
  exact copyEach_eq hacc (pos.distinctTags hd) hpart hok hnodup horder

section
attribute [local instance] Target.lp64

theorem patches_decompose_envelope :
    copyEach .root emptyingPatch [modeField, messageField] readingEnvelope =
      some emptiedEnvelope :=
  patches_decompose envelope (by decide) _ (accessMut_of_valid valid_readingEnvelope) .here
    lend_readingEnvelope rfl (by decide) (by decide)

theorem valid_settingMarked : marked.category.Valid 0 settingMarked.bytes := by decide

/-- A count of zero, named by the second path to its tag, and a mark. -/
def zeroCountMarked : (i : Fin 3) → Option (markedFields i).Patch :=
  eachField none (some ⟨secondVariant, fun _ => some 0#8⟩) (some 7#8)

/-- Two paths to one tag value: after the entry of the payload no other one is accepted. -/
theorem entries_with_aliased_tags :
    marked.accessMut ⟨settingMarked.address, settingMarked.bytes, settingMarked.fits⟩ =
      .ok settingMarked ∧
    (∃ out, copyFrom marked.category .root settingMarked zeroCountMarked = some (.ok (), out)) ∧
    copyEach .root zeroCountMarked [payloadField, markField] settingMarked = none :=
  ⟨accessMut_of_valid valid_settingMarked, ⟨_, rfl⟩, rfl⟩

end

end Schema

end ZeroSchema
