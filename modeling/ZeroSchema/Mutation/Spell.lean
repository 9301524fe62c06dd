import ZeroSchema.Mutation.Cause
import ZeroSchema.Mutation.Presence
import ZeroSchema.Mutation.Supply

/-! Union-only patches. An entry for a payload without an entry for its tag names the tag by
itself. Writing the tag out changes nothing of what is written, but it changes what counts as
complete. -/
namespace ZeroSchema
open Storage Control

section

namespace Category

/-- The second patch is the first one with the tags of some of its payload entries written
out, in records at any depth. -/
def Spells : (c : Category) → c.Patch → c.Patch → Prop
  | struct ir fields, p, q =>
    (∀ i, (fields i).tagEnum = none → Option.Rel (Spells (fields i)) (p i) (q i)) ∧
      ∀ t, (fields t).tagEnum.isSome → q t = p t ∨ p t = none ∧ ∃ i entry tag,
        ir.tagField i = some t ∧ p i = some entry ∧ q t = some tag ∧
        (fields t).entryTag tag = (fields i).patchTag entry
  | tagged _ payload, ⟨k, p⟩, q => ∃ q', q = ⟨k, q'⟩ ∧ Spells (payload k) p q'
  | optional _ inner, p, q => Option.Rel (Spells inner) p q
  | primitive _ _, p, q | bool, p, q | string _, p, q | fixedBytes _, p, q | scalarEnum _, p, q
  | tagSibling _, p, q | unit, p, q | array _ _, p, q => q = p

section Spells
variable {ir : StructIr} {fields : Fin ir.arity → Category} {p q : (struct ir fields).Patch}
  {i : Fin ir.arity}

/-- A field that is no tag sibling has an entry in both patches or in none. -/
theorem Spells.entries (h : (struct ir fields).Spells p q) (hi : (fields i).tagEnum = none) :
    p i = none ∧ q i = none ∨
      ∃ entry entry', p i = some entry ∧ q i = some entry' ∧ (fields i).Spells entry entry' := by
  have hrel := h.1 i hi
  cases hp : p i with
  | none =>
    cases hq : q i with
    | none => exact Or.inl ⟨rfl, rfl⟩
    | some entry' =>
      rw [hp, hq] at hrel
      cases hrel
  | some entry =>
    cases hq : q i with
    | none =>
      rw [hp, hq] at hrel
      cases hrel
    | some entry' =>
      rw [hp, hq] at hrel
      cases hrel with
      | some hentry => exact Or.inr ⟨entry, entry', rfl, rfl, hentry⟩

theorem Spells.patchTag {c : Category} {p q : c.Patch} (h : c.Spells p q) :
    c.patchTag q = c.patchTag p := by
  cases c with
  | tagged ir payload =>
    obtain ⟨k, p⟩ := p
    obtain ⟨q', rfl, -⟩ := h
    rfl
  | _ => rfl

/-- What is complete stays complete. -/
theorem Spells.isComplete {c : Category} {p q : c.Patch} (h : c.Spells p q)
    (hp : c.isComplete p = true) : c.isComplete q = true := by
  induction c with
  | primitive | bool | string | fixedBytes | tagSibling | unit | array => rfl
  | scalarEnum ir =>
    obtain rfl : q = p := h
    exact hp
  | struct ir fields ih =>
    rw [isComplete_struct] at hp ⊢
    intro i
    obtain ⟨entry, hentry, hcomplete⟩ := hp i
    cases hi : (fields i).tagEnum with
    | none =>
      rcases h.entries hi with ⟨hnone, -⟩ | ⟨entry₁, entry', hentry₁, hq, hspells⟩
      · simp [hentry] at hnone
      · obtain rfl := Option.some.inj (hentry.symm.trans hentry₁)
        exact ⟨entry', hq, ih i hspells hcomplete⟩
    | some e =>
      rcases h.2 i (by rw [hi]; rfl) with hq | ⟨hnone, -⟩
      · exact ⟨entry, hq.trans hentry, hcomplete⟩
      · simp [hentry] at hnone
  | tagged ir payload ih =>
    obtain ⟨k, p⟩ := p
    obtain ⟨q', rfl, hq⟩ := h
    exact ih k hq hp
  | optional align inner ih =>
    cases p with
    | none =>
      cases h
      rfl
    | some p =>
      cases h with
      | some hq => exact ih hq hp

/-- Nothing has to be written out. -/
theorem Spells.refl (c : Category) (p : c.Patch) : c.Spells p p := by
  induction c with
  | primitive | bool | string | fixedBytes | scalarEnum | tagSibling | unit | array => exact rfl
  | struct ir fields ih =>
    constructor
    · intro i _
      cases p i with
      | none => exact .none
      | some entry => exact .some (ih i entry)
    · exact fun t _ => Or.inl rfl
  | tagged ir payload ih =>
    obtain ⟨k, p⟩ := p
    exact ⟨p, rfl, ih k p⟩
  | optional align inner ih =>
    cases p with
    | none => exact .none
    | some p => exact .some (ih p)

/-- Writing out one tag. -/
theorem Spells.update {t : Fin ir.arity} (hsibling : (fields t).tagEnum.isSome)
    (ht : ir.tagField i = some t) (hnone : p t = none) {entry : (fields i).Patch}
    (hentry : p i = some entry) {tag : (fields t).Patch}
    (htag : (fields t).entryTag tag = (fields i).patchTag entry) :
    (struct ir fields).Spells p (Function.update p t (some tag)) := by
  constructor
  · intro j hj
    have hne : j ≠ t := by
      intro h
      rw [← h, hj] at hsibling
      cases hsibling
    rw [Function.update_of_ne hne]
    exact (Spells.refl (struct ir fields) p).1 j hj
  · intro u _
    by_cases hut : u = t
    · subst hut
      exact Or.inr ⟨hnone, i, entry, tag, ht, hentry, Function.update_self .., htag⟩
    · rw [Function.update_of_ne hut]
      exact Or.inl rfl

end Spells

variable [Target]

section Record
variable {ir : StructIr} {fields : Fin ir.arity → Category} {p q : (struct ir fields).Patch}

omit [Target] in
/-- A tag that is written out is the tag of its payload's entry. -/
theorem Spells.tags_iff (h : (struct ir fields).Spells p q) (hlink : ir.Linked fields)
    {i t : Fin ir.arity} (ht : ir.tagField i = some t) :
    (∀ tag, q t = some tag → ∃ entry, q i = some entry ∧
      (fields t).entryTag tag = (fields i).patchTag entry) ↔
    ∀ tag, p t = some tag → ∃ entry, p i = some entry ∧
      (fields t).entryTag tag = (fields i).patchTag entry := by
  have howner := hlink.tagEnum_eq_none ht
  have hsibling := hlink.tagEnum_isSome ht
  constructor
  · intro hall tag hp
    rcases h.2 t hsibling with hq | ⟨hnone, -⟩
    · obtain ⟨entry, hentry, htag⟩ := hall tag (hq.trans hp)
      rcases h.entries howner with ⟨-, hnone⟩ | ⟨entry₁, entry', hp', hq', hspells⟩
      · simp [hentry] at hnone
      · obtain rfl := Option.some.inj (hentry.symm.trans hq')
        exact ⟨entry₁, hp', htag.trans hspells.patchTag⟩
    · simp [hp] at hnone
  · intro hall tag hq
    rcases h.2 t hsibling with hsame | ⟨-, j, entry, tag', hj, hentry, hq', htag⟩
    · obtain ⟨entry, hentry, htag⟩ := hall tag (hsame.symm.trans hq)
      rcases h.entries howner with ⟨hnone, -⟩ | ⟨entry₁, entry', hp', hq', hspells⟩
      · simp [hentry] at hnone
      · obtain rfl := Option.some.inj (hentry.symm.trans hp')
        exact ⟨entry', hq', htag.trans hspells.patchTag.symm⟩
    · obtain rfl := hlink.unique j i t hj ht
      obtain rfl := Option.some.inj (hq.symm.trans hq')
      rcases h.entries howner with ⟨hnone, -⟩ | ⟨entry₁, entry', hp', hq₁, hspells⟩
      · simp [hentry] at hnone
      · obtain rfl := Option.some.inj (hentry.symm.trans hp')
        exact ⟨entry', hq₁, htag.trans hspells.patchTag.symm⟩

end Record

/-- Writing tags out does not change what fits. -/
theorem Spells.patchFits_iff {c : Category} (hacc : c.Accepted) {p q : c.Patch}
    (h : c.Spells p q) : c.PatchFits q ↔ c.PatchFits p := by
  induction c with
  | primitive | bool | string | fixedBytes | scalarEnum | tagSibling | unit | array =>
    obtain rfl : q = p := h
    exact Iff.rfl
  | struct ir fields ih =>
    refine and_congr ?_ ?_
    · exact forall_congr' fun i => forall_congr' fun t => forall_congr' fun ht =>
        h.tags_iff hacc.2.1 ht
    · refine forall_congr' fun i => ?_
      cases hi : (fields i).tagEnum with
      | none =>
        rcases h.entries hi with ⟨hp, hq⟩ | ⟨entry, entry', hp, hq, hspells⟩
        · simp [hp, hq]
        · simp only [hp, hq, Option.some.injEq, forall_eq']
          exact ih i (hacc.1 i).1 hspells
      | some e =>
        have hsibling : (fields i).tagEnum.isSome := by rw [hi]; rfl
        exact ⟨fun _ entry _ => patchFits_sibling hsibling entry,
          fun _ entry _ => patchFits_sibling hsibling entry⟩
  | tagged ir payload ih =>
    obtain ⟨k, p⟩ := p
    obtain ⟨q', rfl, hq⟩ := h
    exact ih k (hacc.1 k).1 hq
  | optional align inner ih =>
    cases p with
    | none =>
      cases h
      exact Iff.rfl
    | some p =>
      cases h with
      | some hq => exact ih hacc.1 hq

/-- A commit looks at no entry of a tag sibling. -/
theorem Spells.commitPatch {c : Category} {p q : c.Patch} (h : c.Spells p q)
    (initializing : Bool) (input : Input c.wire) :
    c.commitPatch q initializing input = c.commitPatch p initializing input := by
  induction c generalizing initializing with
  | primitive | bool | string | fixedBytes | scalarEnum | tagSibling | unit | array =>
    obtain rfl : q = p := h
    rfl
  | struct ir fields ih =>
    have hfield (input : Input (struct ir fields).wire) (i : Fin ir.arity) :
        commitPatchField ir fields (fun i => (fields i).commitPatch) initializing q input i =
          commitPatchField ir fields (fun i => (fields i).commitPatch) initializing p input i := by
      cases hi : (fields i).tagEnum with
      | none =>
        unfold commitPatchField
        rcases h.entries hi with ⟨hp, hq⟩ | ⟨entry, entry', hp, hq, hspells⟩
        · rw [hp, hq]
        · have hcommit : (fields i).commitPatch entry' = (fields i).commitPatch entry := by
            funext initializing input
            exact ih i hspells initializing input
          simp only [hp, hq, hspells.patchTag, hcommit]
      | some e =>
        have hsibling : (fields i).tagEnum.isSome := by rw [hi]; rfl
        rw [commitPatchField_sibling hsibling, commitPatchField_sibling hsibling]
    rw [Category.commitPatch, Category.commitPatch, funext fun input => funext (hfield input)]
  | tagged ir payload ih =>
    obtain ⟨k, p⟩ := p
    obtain ⟨q', rfl, hq⟩ := h
    have hcommit : (payload k).commitPatch q' initializing =
        (payload k).commitPatch p initializing := funext fun input => ih k hq initializing input
    rw [Category.commitPatch, Category.commitPatch, hcommit]
  | optional align inner ih =>
    cases p with
    | none =>
      cases h
      rfl
    | some p =>
      cases h with
      | @some _ q hq =>
        have hcommit : inner.commitPatch q (initializing || input.isAllZero) =
            inner.commitPatch p (initializing || input.isAllZero) :=
          funext fun input => ih hq _ input
        rw [Category.commitPatch, Category.commitPatch, hcommit]

/-- A patch with its tags written out supplies what the patch does. -/
theorem Spells.supplies {c : Category} {p q : c.Patch} (h : c.Spells p q) {initializing : Bool}
    {tag : ℕ} {b : Bytes c.wire.size} (hp : c.Supplies initializing tag b p) :
    c.Supplies initializing tag b q := by
  induction c generalizing initializing tag with
  | primitive | bool | string | fixedBytes | scalarEnum | tagSibling | unit => trivial
  | array =>
    obtain rfl : q = p := h
    exact hp
  | struct ir fields ih =>
    intro i hi entry hentry
    rcases h.entries hi with ⟨-, hq⟩ | ⟨entry₁, entry', hp₁, hq, hspells⟩
    · simp [hentry] at hq
    · obtain rfl := Option.some.inj (hentry.symm.trans hq)
      obtain ⟨current, hcurrent, hsupplies⟩ := hp i hi entry₁ hp₁
      exact ⟨current, hcurrent, ih i hspells hsupplies⟩
  | tagged ir payload ih =>
    obtain ⟨k, p⟩ := p
    obtain ⟨q', rfl, hq⟩ := h
    exact ⟨fun hinit => hq.isComplete (hp.1 hinit), ih k hq hp.2⟩
  | optional align inner ih =>
    cases p with
    | none =>
      cases h
      trivial
    | some p =>
      cases h with
      | some hq => exact ⟨fun hinit => hq.isComplete (hp.1 hinit), ih hq hp.2⟩

end Category

variable [Target]

/-- What is seen of a call: that it is rejected, or the storage that it leaves. -/
def outcome {W : Layout} (answer : Answer W) : Option (Option (Input W)) :=
  answer.map fun answer =>
    match answer.1 with
    | .ok () => some answer.2
    | .error _ => none

/-- Two calls that leave the same storage when they succeed end alike when they are rejected
together. -/
theorem outcome_eq_iff {W : Layout} {input : Input W} {first second : Answer W}
    {b b' : Option Blame} (h : Answers input first b) (h' : Answers input second b')
    (hsame : b = none → b' = none → first = second) :
    outcome first = outcome second ↔ (b = none ↔ b' = none) := by
  cases b with
  | none =>
    obtain ⟨out, hout⟩ := h
    cases b' with
    | none =>
      rw [hsame rfl rfl]
      exact ⟨fun _ => Iff.rfl, fun _ => rfl⟩
    | some b' =>
      obtain ⟨e, he, -⟩ := h'
      simp [hout, he, outcome]
  | some b =>
    obtain ⟨e, he, -⟩ := h
    cases b' with
    | none =>
      obtain ⟨out, hout⟩ := h'
      simp [hout, he, outcome]
    | some b' =>
      obtain ⟨e', he', -⟩ := h'
      simp [he, he', outcome]

namespace Category

/-- Writing tags out makes no difference unless it completes a part that initializes a value. -/
theorem Spells.blame_iff {c : Category} (hacc : c.Accepted) {p q : c.Patch} (h : c.Spells p q)
    {initializing : Bool} {tag : ℕ} {b : Bytes c.wire.size} :
    (c.patchBlame initializing tag b p = none ↔ c.patchBlame initializing tag b q = none) ↔
      (c.PatchFits p → c.Supplies initializing tag b q → c.Supplies initializing tag b p) := by
  rw [patchBlame_eq_none hacc, patchBlame_eq_none hacc, h.patchFits_iff hacc]
  constructor
  · intro hiff hfits hsupplies
    exact (hiff.mpr ⟨hfits, hsupplies⟩).2
  · intro himp
    constructor
    · intro hboth
      exact ⟨hboth.1, h.supplies hboth.2⟩
    · intro hboth
      exact ⟨hboth.1, himp hboth.1 hboth.2⟩

theorem Spells.twoPass_eq {c : Category} {p q : c.Patch} (h : c.Spells p q) {ctx : Context}
    {tag : ℕ} {input : Input c.wire} (hacc : c.Accepted)
    (hp : c.patchBlame false tag input.bytes p = none)
    (hq : c.patchBlame false tag input.bytes q = none) :
    twoPass input (c.preflightPatch false ctx tag input p) (c.commitPatch p false) =
      twoPass input (c.preflightPatch false ctx tag input q) (c.commitPatch q false) := by
  have hreport := preflightPatch_reports c hacc false ctx tag input p
  have hreport' := preflightPatch_reports c hacc false ctx tag input q
  have hcommit : c.commitPatch q false = c.commitPatch p false := funext (h.commitPatch false)
  rw [hreport.eq_ok.mpr hp, hreport'.eq_ok.mpr hq, hcommit]

/-- `copy_from` with and without the tags. -/
theorem Spells.copyFrom_iff {c : Category} {p q : c.Patch} (h : c.Spells p q) (hacc : c.Accepted)
    (path : c.isPath = true) (ctx : Context) {input : Input c.wire}
    (hvalid : c.Valid 0 input.bytes) :
    outcome (ZeroSchema.copyFrom c ctx input p) = outcome (ZeroSchema.copyFrom c ctx input q) ↔
      (c.PatchFits p → c.Supplies false 0 input.bytes q → c.Supplies false 0 input.bytes p) := by
  have hanswer (p : c.Patch) : Answers input (ZeroSchema.copyFrom c ctx input p)
      (c.patchBlame false 0 input.bytes p) := by
    have hcall := (Operation.copyFrom path p).perform_answers hacc ctx (fun _ => rfl) hvalid
    rwa [Operation.perform, Operation.blame] at hcall
  rw [outcome_eq_iff (hanswer p) (hanswer q), h.blame_iff hacc]
  intro hp hq
  rw [copyFrom_eq hvalid, copyFrom_eq hvalid]
  exact h.twoPass_eq hacc hp hq

/-- `copy_from` of a selected payload with and without the tags. -/
theorem Spells.copyPayload_iff {ir : TaggedIr} {payload : Fin ir.arity → Category}
    {p q : (tagged ir payload).Patch} (h : (tagged ir payload).Spells p q)
    (hacc : (tagged ir payload).Accepted) {tag : ℕ} {input : Input (tagged ir payload).wire}
    (hvalid : (tagged ir payload).Valid tag input.bytes) :
    outcome (TaggedMut.copyFrom ir payload tag input p) =
        outcome (TaggedMut.copyFrom ir payload tag input q) ↔
      ((tagged ir payload).patchTag p = tag → (tagged ir payload).PatchFits p →
        (tagged ir payload).Supplies false tag input.bytes q →
        (tagged ir payload).Supplies false tag input.bytes p) := by
  by_cases htag : (tagged ir payload).patchTag p = tag
  · have htag' : (tagged ir payload).patchTag q = tag := h.patchTag.trans htag
    have hanswer (p : (tagged ir payload).Patch) (htag : (tagged ir payload).patchTag p = tag) :
        Answers input (TaggedMut.copyFrom ir payload tag input p)
          ((tagged ir payload).patchBlame false tag input.bytes p) := by
      have hcall := (Operation.copyPayload p).perform_answers hacc .root (by simp [payloadEnum]) hvalid
      rwa [Operation.perform, Operation.blame, if_neg (not_not_intro htag)] at hcall
    rw [outcome_eq_iff (hanswer p htag) (hanswer q htag'), h.blame_iff hacc]
    · exact ⟨fun himp _ => himp, fun himp => himp htag⟩
    · intro hp hq
      unfold TaggedMut.copyFrom
      rw [if_neg (not_not_intro htag), if_neg (not_not_intro htag')]
      exact h.twoPass_eq hacc hp hq
  · have htag' : (tagged ir payload).patchTag q ≠ tag := by
      rw [h.patchTag]
      exact htag
    unfold TaggedMut.copyFrom
    rw [if_pos htag, if_pos htag']
    exact ⟨fun _ h => absurd h htag, fun _ => rfl⟩

end Category

end

open Category

namespace Schema

/-- A patch with union entries ends as the same patch with their tags written out exactly where
writing the tags out does not first complete a part that initializes a value. -/
theorem union_only_patches [Target] (S : Schema) {n : ℕ} (s : Slice n) {input : Input S.wire}
    (haccess : S.accessMut s = .ok input) :
    (∀ {c : Category}, c.isPath = true → ∀ (p : Position S.category c) {part : Lent c},
      p.lend .root 0 input = some (some part) → ∀ patch spelled : c.Patch, c.Spells patch spelled →
        (outcome (copyFrom c part.ctx part.input patch) =
            outcome (copyFrom c part.ctx part.input spelled) ↔
          (c.PatchFits patch → c.Supplies false part.tag part.input.bytes spelled →
            c.Supplies false part.tag part.input.bytes patch))) ∧
    ∀ {ir : TaggedIr} {payload : Fin ir.arity → Category}
      (p : Position S.category (tagged ir payload)) {part : Lent (tagged ir payload)},
      p.lend .root 0 input = some (some part) → ∀ patch spelled : (tagged ir payload).Patch,
        (tagged ir payload).Spells patch spelled →
        (outcome (TaggedMut.copyFrom ir payload part.tag part.input patch) =
            outcome (TaggedMut.copyFrom ir payload part.tag part.input spelled) ↔
          ((tagged ir payload).patchTag patch = part.tag → (tagged ir payload).PatchFits patch →
            (tagged ir payload).Supplies false part.tag part.input.bytes spelled →
            (tagged ir payload).Supplies false part.tag part.input.bytes patch)) := by
  have hvalid := valid_of_accessMut haccess
  constructor
  · intro c path p part hlent patch spelled h
    obtain ⟨hacc, hfree, hpart⟩ := p.lend_valid S.accepted (fun _ => rfl) hvalid hlent
    have htag : part.tag = 0 := hfree (payloadEnum_eq_none (Or.inl (isPayload_of_isPath path)))
    rw [htag] at hpart ⊢
    exact h.copyFrom_iff hacc path part.ctx hpart
  · intro ir payload p part hlent patch spelled h
    obtain ⟨hacc, -, hpart⟩ := p.lend_valid S.accepted (fun _ => rfl) hvalid hlent
    exact h.copyPayload_iff hacc hpart

section
attribute [local instance] Target.lp64

/-- A setting without its tag, and with it. -/
def untaggedSetting : holder.category.Patch :=
  eitherField none (some ⟨firstVariant, theField (some (some firstMode))⟩)

def taggedSetting : holder.category.Patch :=
  Function.update untaggedSetting firstVariant (some firstMode)

/-- A patch of the slot that makes the holder present. -/
def inSlot (p : holder.category.Patch) : slotted.category.Patch := theField (some (some p))

theorem spells_taggedSetting : holder.category.Spells untaggedSetting taggedSetting :=
  Spells.update (i := secondVariant) rfl rfl rfl rfl rfl

theorem spells_inSlot {p q : holder.category.Patch} (h : holder.category.Spells p q) :
    slotted.category.Spells (inSlot p) (inSlot q) := by
  constructor
  · intro i _
    match i with
    | 0 => exact .some (.some h)
  · intro t ht
    match t with
    | 0 => cases ht

theorem union_only_patches_slotted :
    outcome (copyFrom slotted.category .root settingSlot (inSlot untaggedSetting)) =
        outcome (copyFrom slotted.category .root settingSlot (inSlot taggedSetting)) ↔
      (slotted.category.PatchFits (inSlot untaggedSetting) →
        slotted.category.Supplies false 0 settingSlot.bytes (inSlot taggedSetting) →
        slotted.category.Supplies false 0 settingSlot.bytes (inSlot untaggedSetting)) :=
  (union_only_patches slotted _ (accessMut_of_valid valid_settingSlot)).1 rfl .here rfl _ _
    (spells_inSlot spells_taggedSetting)

set_option maxRecDepth 2000 in
/-- An absent value cannot be made present by a patch that leaves the tag to its payload. -/
theorem derived_tag_is_incomplete :
    slotted.accessMut ⟨emptySlot.address, emptySlot.bytes, emptySlot.fits⟩ = .ok emptySlot ∧
    slotted.category.Spells (inSlot untaggedSetting) (inSlot taggedSetting) ∧
    outcome (copyFrom slotted.category .root emptySlot (inSlot untaggedSetting)) = some none ∧
    outcome (copyFrom slotted.category .root emptySlot (inSlot taggedSetting)) =
      some (some { emptySlot with bytes := ⟨[1, 1], by decide⟩ }) :=
  ⟨accessMut_of_valid valid_emptySlot, spells_inSlot spells_taggedSetting, rfl, rfl⟩

end

end Schema

end ZeroSchema
