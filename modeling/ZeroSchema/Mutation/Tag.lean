import ZeroSchema.Mutation.Root

/-! A tag and the payload that it selects. They are stored in two fields of a record, and one
of them is written only together with the other. -/
namespace ZeroSchema
open Storage Control

namespace Category
variable [Target]

/-- What the handle of a payload can count on: the tag is that of exactly one variant, whose
payload is proved, and the accessor of that variant alone returns something. -/
def Coherent : (c : Category) → ℕ → Input c.wire → Prop
  | tagged ir payload, tag, input => ∃ k child, (∀ j, (ir.tag j : ℕ) = tag ↔ j = k) ∧
      (payload k).prove .root 0 child = .ok () ∧
      TaggedMut.accessor ir payload tag input k = some (some child) ∧
      ∀ j, j ≠ k → TaggedMut.accessor ir payload tag input j = some none
  | _, _, _ => True

/-- The variant that a payload patch is of, and the one that a tag selects. -/
def patchVariant : (c : Category) → c.Patch → Option ℕ
  | tagged _ _, p => some p.1
  | _, _ => none

def selectedVariant : Category → ℕ → Option ℕ
  | tagged ir _, tag => (ir.select tag).map Fin.val
  | _, _ => none

theorem coherent_of_valid {c : Category} (hd : c.DistinctTags) {tag : ℕ} {input : Input c.wire}
    (hvalid : c.Valid tag input.bytes) : c.Coherent tag input := by
  cases c with
  | tagged ir payload =>
    obtain ⟨k, hk, hpayload⟩ := hvalid
    have htag : (ir.tag k : ℕ) = tag := TaggedIr.tag_of_select hk
    have hall (j : Fin ir.arity) : (ir.tag j : ℕ) = tag ↔ j = k := by
      constructor
      · intro hj
        exact hd.1 (Fin.ext (hj.trans htag.symm))
      · rintro rfl
        exact htag
    have hprove := (prove_eq_ok (payload k) .root 0 (input.child (payloadPlace ir payload k))).mpr
      hpayload
    have hchild := provedChild_place input (payloadPlace ir payload k) hprove
    refine ⟨k, input.child (payloadPlace ir payload k), hall, hprove, ?_, fun j hj => ?_⟩
    · rw [TaggedMut.accessor, if_pos htag.symm]
      exact congrArg (Option.map some) hchild
    · have hne : ¬tag = ir.tag j := fun h => hj ((hall j).mp h.symm)
      rw [TaggedMut.accessor, if_neg hne]
  | _ => trivial

theorem loadTag_of_represents {c : Category} {e : EnumIr} (hc : c.tagEnum = some e) {tag : ℕ}
    {b : Bytes c.wire.size} {v : c.Logical} (h : c.Represents tag b v) :
    c.loadTag b = some (c.storedTag v) := by
  cases c with
  | tagSibling ir => exact congrArg (Option.map Fin.val) h
  | _ => cases hc

section Record
variable {ir : StructIr} {fields : Fin ir.arity → Category} {i t : Fin ir.arity}

/-- A tag is its bytes. -/
theorem loadTag_injective {c : Category} {b b' : Bytes c.wire.size} {tag : ℕ}
    (h : c.loadTag b = some tag) (h' : c.loadTag b' = some tag) : b = b' := by
  cases c with
  | tagSibling ir =>
    obtain ⟨v, hv, rfl⟩ := Option.map_eq_some_iff.mp h
    obtain ⟨v', hv', heq⟩ := Option.map_eq_some_iff.mp h'
    obtain rfl := Fin.ext heq
    exact (EnumIr.commit_of_load hv).symm.trans (EnumIr.commit_of_load hv')
  | _ => cases h

/-- Valid records hold a tag for each payload. -/
theorem exists_tag (ht : ir.tagField i = some t) {b : Bytes (struct ir fields).wire.size}
    (hvalid : (struct ir fields).Valid 0 b) :
    ∃ tag, (fields t).loadTag ((fieldPlace ir fields t).get b) = some tag ∧
      (fields i).Valid tag ((fieldPlace ir fields i).get b) := by
  obtain ⟨tag, htag, hi⟩ := hvalid i
  rw [tagAt_of_link ht] at htag
  exact ⟨tag, htag, hi⟩

/-- A handle of one field writes no other field. -/
theorem session_field_frame {h : (fields i).tagEnum = none} (hti : t ≠ i) {m : Mutation (fields i)}
    {ctx : Context} {tag : ℕ} {input : Input (struct ir fields).wire}
    (hvalid : (struct ir fields).Valid 0 input.bytes)
    {trace : Trace (Input (struct ir fields).wire) (Except SchemaError Unit)}
    (hrun : (Mutation.field i h m).run ctx tag input = some trace) :
    ∀ a ∈ trace, (fieldPlace ir fields t).get a.2.bytes = (fieldPlace ir fields t).get input.bytes := by
  obtain ⟨tag, htag, hi⟩ := hvalid i
  rw [Mutation.run, siblingTag_proved, htag] at hrun
  change session input (fieldPlace ir fields i).offset _ _ = _ at hrun
  rw [session_place input _ ((prove_eq_ok _ _ _ _).mpr hi)] at hrun
  obtain ⟨inner, -, rfl⟩ := Option.map_eq_some_iff.mp hrun
  intro a ha
  obtain ⟨child, -, rfl⟩ := List.mem_map.mp ha
  exact Cell.get_put_of_disjoint (fieldPlace_disjoint ir fields hti) _ _

/-- The tag that a record's payload has after a patch: that of its entry, if there is one. -/
theorem copyFrom_tag (h : (struct ir fields).Accepted) (hd : (struct ir fields).DistinctTags)
    (ht : ir.tagField i = some t) {ctx : Context} {input out : Input (struct ir fields).wire}
    {p : (struct ir fields).Patch} {tag : ℕ}
    (hvalid : (struct ir fields).Valid 0 input.bytes)
    (htag : (fields t).loadTag ((fieldPlace ir fields t).get input.bytes) = some tag)
    (hok : ZeroSchema.copyFrom (struct ir fields) ctx input p = some (.ok (), out)) :
    (fields t).loadTag ((fieldPlace ir fields t).get out.bytes) =
      some (((p i).map (fields i).patchTag).getD tag) := by
  obtain ⟨v, hv⟩ := (valid_iff _ _ _).mp hvalid
  rw [copyFrom_eq hvalid] at hok
  rcases patch_cases h ctx (fun _ => rfl) input p rfl with ⟨e, he⟩ | ⟨out', hout, hmerge⟩
  · cases hok.symm.trans he
  obtain rfl : out = out' := by
    simpa using hok.symm.trans hout
  obtain ⟨w, hw, hrep⟩ := hmerge hd v hv
  obtain ⟨e, he⟩ := Option.isSome_iff_exists.mp (h.2.1.tagEnum_isSome ht)
  have hstored (u : (struct ir fields).Logical) (b : Bytes (struct ir fields).wire.size)
      (hu : (struct ir fields).Represents 0 b u) :
      (fields t).loadTag ((fieldPlace ir fields t).get b) = some ((fields t).storedTag (u t)) := by
    obtain ⟨_, -, hut⟩ := hu t
    exact loadTag_of_represents he hut
  have hfield := collect_eq_some.mp hw t
  rw [mergeField_sibling h.2.1 ht] at hfield
  rw [hstored w _ hrep]
  cases hp : p i with
  | none =>
    rw [hp] at hfield
    have hwt : v t = w t := Option.some.inj hfield
    rw [← hwt, ← hstored v _ hv, htag]
    rfl
  | some entry =>
    rw [hp] at hfield
    have hlink := h.2.1.link i t ht
    have hlt : (fields i).patchTag entry < e.arity := patchTag_lt (hlink.2.symm.trans he) entry
    obtain ⟨u, hu, hut⟩ := storedTag_ofTag he hlt
    have hwt : u = w t := Option.some.inj (hu.symm.trans hfield)
    rw [← hwt, hut]
    rfl

/-- The law of a payload `i` and its sibling `t`, in the storage of their record: they agree,
no mutation through the payload's handle changes a byte of the tag, and a patch of the record
changes the tag exactly when its entry is of another variant. -/
structure TagLaw (ir : StructIr) (fields : Fin ir.arity → Category)
    (part : Lent (struct ir fields)) (i t : Fin ir.arity) : Prop where
  coherent : ∃ tag, (fields t).loadTag ((fieldPlace ir fields t).get part.input.bytes) = some tag ∧
    (fields i).Coherent tag (part.input.child (fieldPlace ir fields i))
  session : ∀ (h : (fields i).tagEnum = none) (m : Mutation (fields i)) trace,
    (Mutation.field i h m).run part.ctx part.tag part.input = some trace → ∀ a ∈ trace,
      (fieldPlace ir fields t).get a.2.bytes = (fieldPlace ir fields t).get part.input.bytes
  patch : ∀ (p : (struct ir fields).Patch) out tag,
    (fields t).loadTag ((fieldPlace ir fields t).get part.input.bytes) = some tag →
    ZeroSchema.copyFrom (struct ir fields) part.ctx part.input p = some (.ok (), out) →
      ((fieldPlace ir fields t).get out.bytes ≠ (fieldPlace ir fields t).get part.input.bytes ↔
        ∃ entry, p i = some entry ∧
          (fields i).patchVariant entry ≠ (fields i).selectedVariant tag)

theorem patchVariant_eq {c : Category} {e : EnumIr} (hc : c.payloadEnum = some e)
    (hd : c.DistinctTags) {tag : ℕ} {b : Bytes c.wire.size} (hvalid : c.Valid tag b)
    (entry : c.Patch) : c.patchVariant entry = c.selectedVariant tag ↔ c.patchTag entry = tag := by
  cases c with
  | tagged ir payload =>
    obtain ⟨k, hk, -⟩ := hvalid
    have htag : (ir.tag k : ℕ) = tag := TaggedIr.tag_of_select hk
    have hselected : (tagged ir payload).selectedVariant tag = some (k : ℕ) := by
      rw [selectedVariant, hk]
      rfl
    rw [hselected]
    change some (entry.1 : ℕ) = some (k : ℕ) ↔ (ir.tag entry.1 : ℕ) = tag
    constructor
    · intro h
      have hentry : entry.1 = k := Fin.ext (Option.some.inj h)
      rw [hentry, htag]
    · intro h
      have hentry : entry.1 = k := hd.1 (Fin.ext (h.trans htag.symm))
      rw [hentry]
  | _ => cases hc

theorem tagLaw_of_valid (h : (struct ir fields).Accepted) (hd : (struct ir fields).DistinctTags)
    (ht : ir.tagField i = some t) {part : Lent (struct ir fields)}
    (hvalid : (struct ir fields).Valid 0 part.input.bytes) : TagLaw ir fields part i t where
  coherent := by
    obtain ⟨tag, htag, hi⟩ := exists_tag ht hvalid
    exact ⟨tag, htag, coherent_of_valid (hd i) hi⟩
  session := by
    intro hi m trace hrun
    have hti : t ≠ i := by
      rintro rfl
      have hsome := h.2.1.tagEnum_isSome ht
      rw [hi] at hsome
      cases hsome
    exact session_field_frame hti hvalid hrun
  patch := by
    intro p out tag htag hok
    obtain ⟨tag', htag', hi⟩ := exists_tag ht hvalid
    obtain rfl : tag' = tag := Option.some.inj (htag'.symm.trans htag)
    obtain ⟨e, he⟩ := Option.isSome_iff_exists.mp (h.2.1.link i t ht).1
    have hout := copyFrom_tag h hd ht hvalid htag hok
    cases hp : p i with
    | none =>
      rw [hp] at hout
      have hsame := loadTag_injective hout htag
      simp [hsame]
    | some entry =>
      rw [hp] at hout
      have hvariant := patchVariant_eq he (hd i) hi entry
      have hbytes : (fieldPlace ir fields t).get out.bytes =
          (fieldPlace ir fields t).get part.input.bytes ↔ (fields i).patchTag entry = tag' := by
        constructor
        · intro heq
          rw [heq, htag] at hout
          exact (Option.some.inj hout).symm
        · intro heq
          rw [Option.map_some, Option.getD_some, heq] at hout
          exact loadTag_injective hout htag
      rw [ne_eq, not_congr hbytes, ← not_congr hvariant]
      constructor
      · intro hne
        exact ⟨entry, rfl, hne⟩
      · rintro ⟨entry', hentry, hne⟩
        obtain rfl := Option.some.inj hentry
        exact hne

end Record

end Category

open Category

namespace Schema

section
attribute [local instance] Target.lp64

/-- The payload of a holder. -/
def holderPayload : Position holder.category (tagged aliased aliasedPayload) :=
  .field secondVariant tagEnum_holderPayload .here

end

end Schema

end ZeroSchema
