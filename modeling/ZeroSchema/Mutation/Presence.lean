import ZeroSchema.Mutation.Root

/-! Presence. An optional stores no flag: it is absent when its whole storage is zero, so no
present value may ever be written as zeros. -/
namespace ZeroSchema
open Storage Control

namespace Category

/-- What a patch promises about presence, at any depth: an entry for an optional decides
whether the value is there. -/
def Installs : (c : Category) → c.Patch → c.Logical → Prop
  | struct _ fields, p, v => ∀ i entry, p i = some entry → Installs (fields i) entry (v i)
  | tagged _ payload, p, v => ∃ value, v = ⟨p.1, value⟩ ∧ Installs (payload p.1) p.2 value
  | optional _ _, none, v => v = none
  | optional _ inner, some p, v => ∃ value, v = some value ∧ Installs inner p value
  | _, _, _ => True

theorem installs_of_merge (c : Category) {base : Option c.Logical} {p : c.Patch}
    {v : c.Logical} (hmerge : c.merge base p = some v) : c.Installs p v := by
  induction c with
  | primitive | bool | string | fixedBytes | scalarEnum | tagSibling | unit | array => trivial
  | struct ir fields ih =>
    intro i entry hentry
    have hfield := collect_eq_some.mp hmerge i
    cases hi : (fields i).tagEnum with
    | none =>
      rw [mergeField_eq hi, hentry] at hfield
      exact ih i hfield
    | some e =>
      have htrivial (c : Category) (hc : c.tagEnum = some e) (p : c.Patch) (v : c.Logical) :
          c.Installs p v := by
        cases c with
        | tagSibling ir => trivial
        | _ => cases hc
      exact htrivial _ hi _ _
  | tagged ir payload ih =>
    obtain ⟨value, hvalue, rfl⟩ := Option.map_eq_some_iff.mp hmerge
    exact ⟨value, rfl, ih p.1 hvalue⟩
  | optional align inner ih =>
    cases p with
    | none => exact (Option.some.inj hmerge).symm
    | some p =>
      obtain ⟨value, hvalue, rfl⟩ := Option.map_eq_some_iff.mp hmerge
      exact ⟨value, rfl, ih hvalue⟩

variable [Target]

/-- What a successful patch promised about presence holds of the value that it leaves. -/
theorem installs_of_ok {c : Category} (h : c.Accepted) (hd : c.DistinctTags) {ctx : Context}
    {tag : ℕ} (hfree : c.payloadEnum = none → tag = 0) {input out : Input c.wire}
    (hvalid : c.Valid tag input.bytes) {p : c.Patch} (htag : c.patchTag p = tag)
    (hok : twoPass input (c.preflightPatch false ctx tag input p) (c.commitPatch p false) =
      some (.ok (), out)) :
    ∃ v, c.materialize tag out = some v ∧ c.Installs p v := by
  obtain ⟨v, hv⟩ := (valid_iff _ _ _).mp hvalid
  rcases patch_cases h ctx hfree input p htag with ⟨e, he⟩ | ⟨out', hout, hmerge⟩
  · cases hok.symm.trans he
  · obtain rfl : out = out' := by
      simpa using hok.symm.trans hout
    obtain ⟨w, hw, hrep⟩ := hmerge hd v hv
    exact ⟨w, materialize_eq _ out hrep, installs_of_merge c hw⟩

/-- The storage of an optional is a faithful encoding of its presence, for reads, for both
kinds of `set`, and for everything done through the handle of the present value. -/
structure Sentinel (align : Option Alignment) (inner : Category)
    (part : Lent (optional align inner)) : Prop where
  get : ∃ v, OptionMut.get align inner part.input = some v ∧ (v = none ↔ part.input.bytes.IsZero)
  set_some : ∀ v out,
    OptionMut.set align inner part.ctx part.input (some v) = some (.ok (), out) →
      OptionMut.get align inner out = some (some v)
  set_none : ∃ out, OptionMut.set align inner part.ctx part.input none = some (.ok (), out) ∧
    OptionMut.get align inner out = some none
  session : ¬part.input.bytes.IsZero → ∀ m : Mutation inner, ∃ trace,
    (Mutation.present m).run part.ctx part.tag part.input = some trace ∧
    ∀ a ∈ trace, ∃ v, OptionMut.get align inner a.2 = some (some v)

section
variable {align : Option Alignment} {inner : Category}

theorem represents_none_iff {b : Bytes (optional align inner).wire.size}
    {v : (optional align inner).Logical} (h : (optional align inner).Represents 0 b v) :
    v = none ↔ b.IsZero := by
  cases v with
  | none => exact ⟨fun _ => h, fun _ => rfl⟩
  | some v =>
    constructor
    · intro hv
      cases hv
    · intro hz
      exact absurd hz h.1

theorem get_of_present (h : (optional align inner).Accepted)
    {input : Input (optional align inner).wire}
    (hvalue : inner.Valid 0 ((presentPlace align inner).get input.bytes)) :
    ∃ v, OptionMut.get align inner input = some (some v) := by
  have hnonzero := not_isZero_of_valid h hvalue
  have hvalid : (optional align inner).Valid 0 input.bytes := Or.inr hvalue
  obtain ⟨v, hv⟩ := (valid_iff _ _ _).mp hvalid
  cases v with
  | none => exact absurd hv hnonzero
  | some v => exact ⟨v, materialize_eq _ input hv⟩

theorem sentinel_of_valid (h : (optional align inner).Accepted)
    (hd : (optional align inner).DistinctTags) {part : Lent (optional align inner)}
    (hvalid : (optional align inner).Valid 0 part.input.bytes) : Sentinel align inner part where
  get := by
    obtain ⟨v, hv⟩ := (valid_iff _ _ _).mp hvalid
    exact ⟨v, materialize_eq _ part.input hv, represents_none_iff hv⟩
  set_some := by
    intro v out hset
    rcases assign_cases h rfl part.ctx part.input (some v) with ⟨e, he⟩ | ⟨out', hout, hrep⟩
    · cases hset.symm.trans he
    · obtain rfl : out = out' := by
        simpa using hset.symm.trans hout
      exact materialize_eq _ out (hrep hd hvalid)
  set_none := by
    refine ⟨part.input.clearAll, rfl, ?_⟩
    have hzero : (optional align inner).Represents 0 part.input.clearAll.bytes none :=
      Bytes.isZero_zero
    exact materialize_eq _ _ hzero
  session := by
    intro hnonzero m
    have hvalue := hvalid.resolve_left hnonzero
    have hprove := (prove_eq_ok inner part.ctx 0 (part.input.child (presentPlace align inner))).mpr
      hvalue
    have hrun : ∃ trace, m.run part.ctx 0 (part.input.child (presentPlace align inner)) = some trace ∧
        ∀ a ∈ trace, inner.Valid 0 a.2.bytes :=
      m.run_valid h.1 hd part.ctx (fun _ => rfl) hvalue
    have hput (x : Bytes inner.wire.size) (hx : inner.Valid 0 x) :
        inner.Valid 0 ((presentPlace align inner).get
          ((presentPlace align inner).put part.input.bytes x)) := by
      rwa [Cell.get_put]
    obtain ⟨trace, htrace, hall⟩ := session_valid part.input (presentPlace align inner) hprove hrun
      (P := fun b => inner.Valid 0 ((presentPlace align inner).get b)) hput
    refine ⟨trace, ?_, fun a ha => get_of_present h (hall a ha)⟩
    rw [Mutation.run, if_neg (mt Input.isAllZero_eq_true.mp hnonzero)]
    exact htrace

end

end Category

open Category

namespace Schema

section
attribute [local instance] Target.lp64

theorem valid_emptySlot : slotted.category.Valid 0 emptySlot.bytes := by decide +kernel

/-- The holder of a count of two: its second byte also stands for the setting `Second`. -/
def countHolder : (i : Fin 2) → (holderFields i).Logical :=
  eitherField firstMode ⟨secondVariant, fun _ => 2#8⟩

def variantOf (v : (tagged aliased aliasedPayload).Logical) : ℕ := v.1

end

end Schema

end ZeroSchema
