import ZeroSchema.Mutation.Merge

/-! Which patches a preflight accepts. What a patch holds has to fit wherever it is written; what
it has to hold depends on the value it is applied to. -/
namespace ZeroSchema
open Storage Control

namespace Category

/-- The entries fit: the strings have room, and a tag entry names the tag of its payload's
entry, which must be there. -/
def PatchFits : (c : Category) → c.Patch → Prop
  | string s, p => s.Fits p
  | struct ir fields, p =>
    (∀ i t, ir.tagField i = some t → ∀ tag, p t = some tag →
      ∃ entry, p i = some entry ∧ (fields t).entryTag tag = (fields i).patchTag entry) ∧
      ∀ i entry, p i = some entry → PatchFits (fields i) entry
  | tagged _ payload, ⟨k, p⟩ => PatchFits (payload k) p
  | array element n, v => (array element n).Fits v
  | optional _ _, none => True
  | optional _ inner, some p => PatchFits inner p
  | primitive _ _, _ | bool, _ | fixedBytes _, _ | scalarEnum _, _ | tagSibling _, _ | unit, _ =>
    True

/-- Wherever there is no value to start from the patch is complete. -/
def Suffices : (c : Category) → Option c.Logical → c.Patch → Prop
  | struct _ fields, base, p =>
    ∀ i entry, p i = some entry → Suffices (fields i) (base.map fun v => v i) entry
  | tagged _ payload, base, ⟨k, p⟩ =>
    (base.bind (payloadOf k) = none → (payload k).isComplete p = true) ∧
      Suffices (payload k) (base.bind (payloadOf k)) p
  | optional _ _, _, none => True
  | optional _ inner, base, some p =>
    (base.join = none → inner.isComplete p = true) ∧ Suffices inner base.join p
  | primitive _ _, _, _ | bool, _, _ | string _, _, _ | fixedBytes _, _, _ | scalarEnum _, _, _
  | tagSibling _, _, _ | unit, _, _ | array _ _, _, _ => True

variable [Target]

omit [Target] in
theorem patchFits_sibling {c : Category} (hc : c.tagEnum.isSome) (p : c.Patch) : c.PatchFits p := by
  cases c with
  | tagSibling ir => trivial
  | _ => cases hc

omit [Target] in
theorem suffices_sibling {c : Category} (hc : c.tagEnum.isSome) (base : Option c.Logical)
    (p : c.Patch) : c.Suffices base p := by
  cases c with
  | tagSibling ir => trivial
  | _ => cases hc

/-- A preflight looks at the patch and at the value it is applied to, and at nothing else. -/
theorem preflightPatch_eq_ok (c : Category) (h : c.Accepted) (hd : c.DistinctTags)
    {initializing : Bool} {ctx : Context} {tag : ℕ} {input : Input c.wire}
    {base : Option c.Logical} {p : c.Patch} (hstart : c.Start initializing tag input.bytes base) :
    c.preflightPatch initializing ctx tag input p = .ok () ↔ c.PatchFits p ∧ c.Suffices base p := by
  induction c generalizing initializing ctx tag with
  | primitive | bool | scalarEnum | tagSibling | unit =>
    exact ⟨fun _ => ⟨trivial, trivial⟩, fun _ => rfl⟩
  | string s => exact StringIr.preflight_eq_ok.trans ⟨fun h => ⟨h, trivial⟩, fun h => h.1⟩
  | fixedBytes n => exact ⟨fun _ => ⟨trivial, trivial⟩, fun _ => if_pos p.length_eq⟩
  | struct ir fields ih =>
    rw [preflightPatch, forEach_eq_ok]
    have key (i : Fin ir.arity) (hi : (fields i).tagEnum = none) :
        preflightPatchField ir fields (fun i => preflightPatch (fields i) initializing)
            initializing input p i = .ok () ↔
          (∀ t, ir.tagField i = some t → ∀ tag, p t = some tag →
            ∃ entry, p i = some entry ∧ (fields t).entryTag tag = (fields i).patchTag entry) ∧
          ∀ entry, p i = some entry →
            (fields i).PatchFits entry ∧ (fields i).Suffices (base.map fun v => v i) entry := by
      obtain ⟨current, hcurrent, hfree, -⟩ := exists_current h.2.1 hstart.valid i
      rw [preflightPatchField_eq_ok hi hcurrent hfree h.2.1]
      refine and_congr_right fun _ => forall_congr' fun entry => forall_congr' fun _ => ?_
      exact ih i (h.1 i).1 (hd i) (hstart.field hcurrent)
    constructor
    · intro hall
      refine ⟨⟨fun i t ht => ((key i (h.2.1.tagEnum_eq_none ht)).mp (hall i)).1 t ht, ?_⟩, ?_⟩
      · intro i entry hp
        cases hi : (fields i).tagEnum with
        | none => exact (((key i hi).mp (hall i)).2 entry hp).1
        | some e => exact patchFits_sibling (by rw [hi]; rfl) entry
      · intro i entry hp
        cases hi : (fields i).tagEnum with
        | none => exact (((key i hi).mp (hall i)).2 entry hp).2
        | some e => exact suffices_sibling (by rw [hi]; rfl) _ entry
    · rintro ⟨⟨htags, hfits⟩, hsuffices⟩ i
      cases hi : (fields i).tagEnum with
      | none =>
        exact (key i hi).mpr ⟨htags i, fun entry hp => ⟨hfits i entry hp, hsuffices i entry hp⟩⟩
      | some e =>
        have hskip : (fields i).tagEnum.isSome := by rw [hi]; rfl
        exact if_pos hskip
  | tagged ir payload ih =>
    obtain ⟨k, p⟩ := p
    have hchild := hstart.payload hd.1 k
    have hpayload : (payload k).preflightPatch (initializing || decide (tag ≠ ir.tag k)) .root 0
        (input.child (payloadPlace ir payload k)) p = .ok () ↔ _ := ih k (h.1 k).1 (hd.2 k) hchild
    rw [preflightPatch, requireComplete_eq_ok, onLayout_payload, Outcome.ok_bind,
      Outcome.mapErr_eq_ok, hchild.initializing_iff, hpayload]
    constructor
    · rintro ⟨hcomplete, hfits, hsuffices⟩
      exact ⟨hfits, hcomplete, hsuffices⟩
    · rintro ⟨hfits, hcomplete, hsuffices⟩
      exact ⟨hcomplete, hfits, hsuffices⟩
  | array element n ih =>
    rw [preflightPatch, preflightLogical_eq_ok (array element n) h hd hstart.valid]
    exact ⟨fun h => ⟨h, trivial⟩, fun h => h.1⟩
  | optional align inner ih =>
    cases p with
    | none => exact ⟨fun _ => ⟨trivial, trivial⟩, fun _ => rfl⟩
    | some p =>
      have hchild := hstart.present
      have hinner : inner.preflightPatch (initializing || input.isAllZero) ctx 0
          (input.child (presentPlace align inner)) p = .ok () ↔ _ := ih h.1 hd hchild
      rw [preflightPatch, Context.onLayout_subrange, Outcome.ok_bind, requireComplete_eq_ok,
        childFailure_eq_ok, hchild.initializing_iff, hinner]
      constructor
      · rintro ⟨hcomplete, hfits, hsuffices⟩
        exact ⟨hfits, hcomplete, hsuffices⟩
      · rintro ⟨hfits, hcomplete, hsuffices⟩
        exact ⟨hcomplete, hfits, hsuffices⟩

end Category

end ZeroSchema
