import ZeroSchema.Access.Root
import ZeroSchema.Schema.Misread

/-! The layout metadata of a root against its access: exactly when a decoder that is driven by
the metadata alone accepts what access accepts and reads what access reads. -/
namespace ZeroSchema
open Storage Control Category

namespace Category

/-- The spelling that denotes the inner type itself: no path in it starts with `self` or
`super`. -/
def plain [Target] : (c : Category) → c.Rebased
  | struct _ fields => fun i => plain (fields i)
  | tagged _ payload => fun k => plain (payload k)
  | array element _ => plain element
  | optional _ inner => (inner.wire, plain inner)
  | primitive _ _ | bool | string _ | fixedBytes _ | scalarEnum _ | tagSibling _ | unit => ()

variable [Target]

theorem sameStorage_plain (c : Category) : c.SameStorage c.plain := by
  induction c with
  | struct ir fields ih => exact ih
  | tagged ir payload ih => exact fun k _ => ih k
  | array element n ih => exact ih
  | optional align inner ih => exact ⟨rfl, ih⟩
  | _ => trivial

/-- A category whose metadata is emitted wherever it may stand. -/
structure Emits (c : Category) (r : c.Rebased) : Prop where
  layout : c.isPath = true → ∃ d, c.layout r = some d
  element : c.isElement = true → ∃ kind, c.arrayElementKind r = some kind
  field : c.isField = true → ∀ link : Option ExternalTagDescriptor,
    (c.payloadEnum.isSome → link.isSome) → ∃ kind, c.fieldMetadataKind r link = some kind

theorem exists_structLayout {ir : StructIr} {fields : Fin ir.arity → Category}
    (hacc : (struct ir fields).Accepted) {r : (struct ir fields).Rebased}
    (hsame : (struct ir fields).SameStorage r) (hfields : ∀ i, (fields i).Emits (r i)) :
    ∃ d, structLayout ir fields r (fun i => (fields i).fieldMetadataKind (r i)) = some d := by
  have habi : StructAbi ir fields r := by
    intro i
    rw [size_outerWireFieldType hacc (hsame i).sameSize, ← storagePlace_offset]
    exact (storagePlace ir fields i).bound
  have htag (i : Fin ir.arity) (h : (fields i).payloadEnum.isSome) :
      (externalTag ir fields i).isSome := by
    obtain ⟨e, he⟩ := Option.isSome_iff_exists.mp h
    obtain ⟨t, ht⟩ := Option.isSome_iff_exists.mp (hacc.2.1.linked i h)
    have henum : (fields t).tagEnum = some e := (hacc.2.1.link i t ht).2.trans he
    unfold externalTag
    rw [ht]
    show ((fields t).tagEnum >>= _).isSome
    rw [henum]
    rfl
  choose kinds hkinds using fun i =>
    (hfields i).field (hacc.1 i).2.1 (externalTag ir fields i) (htag i)
  refine ⟨recordLayout ir fields r kinds, ?_⟩
  rw [structLayout, if_pos habi, collect_eq_some.mpr hkinds]
  rfl

omit [Target] in
theorem isField_of_optionalInner {c : Category} (h : c.isOptionalInner = true) :
    c.isField = true := by
  cases c with
  | unit => cases h
  | _ => rfl

theorem exists_variantLayout {c : Category} {r : c.Rebased} (hc : c.isPayload = true)
    (h : c.Emits r) (name : String) : ∃ d, variantLayout name c (c.layout r) = some d := by
  cases c with
  | unit => exact ⟨_, rfl⟩
  | scalarEnum | struct => exact h.layout rfl
  | _ => cases hc

/-- Without such a path, the metadata of an accepted declaration is emitted: the compile-time
checks pass, and no branch that is called unreachable is reached. -/
theorem emits_plain (c : Category) (hacc : c.Accepted) : c.Emits c.plain := by
  induction c with
  | primitive | bool | string =>
    constructor
    · intro h
      cases h
    · intro _
      exact ⟨_, rfl⟩
    · intro _ _ _
      exact ⟨_, rfl⟩
  | fixedBytes | tagSibling =>
    constructor
    · intro h
      cases h
    · intro h
      cases h
    · intro _ _ _
      exact ⟨_, rfl⟩
  | scalarEnum ir =>
    constructor
    · intro _
      exact ⟨_, rfl⟩
    · intro _
      exact ⟨_, rfl⟩
    · intro _ _ _
      exact ⟨_, rfl⟩
  | struct ir fields ih =>
    obtain ⟨d, hd⟩ := exists_structLayout hacc (sameStorage_plain (struct ir fields))
      fun i => ih i (hacc.1 i).1
    constructor
    · intro _
      exact ⟨d, hd⟩
    · intro _
      exact ⟨d.elementKind, Option.map_eq_some_iff.mpr ⟨d, hd, rfl⟩⟩
    · intro _ _ _
      exact ⟨d.fieldKind, Option.map_eq_some_iff.mpr ⟨d, hd, rfl⟩⟩
  | tagged ir payload ih =>
    constructor
    · intro h
      cases h
    · intro h
      cases h
    · intro _ link hlink
      obtain ⟨tag, rfl⟩ := Option.isSome_iff_exists.mp (hlink rfl)
      choose layouts hlayouts using fun k => exists_variantLayout (hacc.1 k).2
        (ih k (hacc.1 k).1) (ir.logicalName ++ "." ++ ir.variantName k)
      have htagged : taggedLayout ir payload (fun k => (payload k).layout (payload k).plain) =
          some (payloadLayout ir payload layouts) := by
        rw [taggedLayout, collect_eq_some.mpr hlayouts]
        rfl
      exact ⟨_, Option.map_eq_some_iff.mpr ⟨_, htagged, rfl⟩⟩
  | unit =>
    constructor
    · intro h
      cases h
    · intro h
      cases h
    · intro h
      cases h
  | array element n ih =>
    obtain ⟨kind, hkind⟩ := (ih hacc.1).element hacc.2.1
    constructor
    · intro h
      cases h
    · intro _
      exact ⟨_, Option.map_eq_some_iff.mpr ⟨kind, hkind, rfl⟩⟩
    · intro _ _ _
      exact ⟨_, Option.map_eq_some_iff.mpr ⟨kind, hkind, rfl⟩⟩
  | optional align inner ih =>
    constructor
    · intro h
      cases h
    · intro h
      cases h
    · intro _ link _
      apply (ih hacc.1).field (isField_of_optionalInner hacc.2.1) link
      intro h
      rw [payloadEnum_eq_none (Or.inr (Or.inr hacc.2.1))] at h
      cases h

theorem layout_size {c : Category} {r : c.Rebased} {d : LayoutDescriptor}
    (hpath : c.isPath = true) (hd : c.layout r = some d) :
    d.size = c.wire.size ∧ d.align = c.wire.align := by
  cases c with
  | scalarEnum ir =>
    obtain rfl := Option.some.inj hd
    exact ⟨rfl, rfl⟩
  | struct ir fields =>
    obtain ⟨-, kinds, -, rfl⟩ := layout_struct hd
    exact ⟨rfl, rfl⟩
  | _ => cases hpath

end Category

theorem fromChecked_eq_ok [Target] {W : Layout} {n : ℕ} {s : Slice n} {input : Input W} :
    Input.fromChecked W s = .ok input ↔ n = W.size ∧ s.address % W.align = 0 ∧
      input.address = s.address ∧ input.bytes.toList = s.bytes.toList := by
  unfold Input.fromChecked
  split_ifs with hsize halign
  · rw [Except.ok.injEq]
    constructor
    · rintro rfl
      exact ⟨hsize, halign, rfl, rfl⟩
    · rintro ⟨-, -, haddress, hbytes⟩
      exact Input.ext haddress.symm (Bytes.ext hbytes.symm)
  · constructor
    · intro h
      cases h
    · rintro ⟨-, h, -⟩
      exact absurd h halign
  · constructor
    · intro h
      cases h
    · rintro ⟨h, -⟩
      exact absurd h hsize

namespace Schema

section
variable [Target] (S : Schema)

/-- A decoder that only knows the layout accepts exactly the spans that access accepts, and
yields the logical value that access reads. -/
def DescribedBy (d : LayoutDescriptor) : Prop :=
  ∀ (n : ℕ) (s : Slice n), ((d.read s).isSome = true ↔ (S.access s).isOk = true) ∧
    ∀ input, S.access s = .ok input →
      ∃ v, S.category.materialize 0 input = some v ∧ d.read s = some (S.category.datum v)

variable {S}

theorem access_eq_ok {n : ℕ} {s : Slice n} {input : Input S.wire} :
    S.access s = .ok input ↔
      Input.fromChecked S.wire s = .ok input ∧ S.category.Valid 0 input.bytes := by
  constructor
  · intro h
    obtain ⟨input', hinput, h⟩ := Outcome.bind_eq_ok.mp h
    obtain ⟨_, hprove, h⟩ := Outcome.bind_eq_ok.mp h
    obtain rfl := Outcome.ok.inj h
    refine ⟨?_, (prove_eq_ok _ _ _ _).mp hprove⟩
    cases hchecked : Input.fromChecked S.wire s with
    | error e =>
      rw [hchecked] at hinput
      cases hinput
    | ok input'' =>
      rw [hchecked] at hinput
      exact congrArg Except.ok (Outcome.ok.inj hinput)
  · rintro ⟨hinput, hvalid⟩
    rw [access, hinput]
    change (S.category.prove .root 0 input >>= fun _ => _) = _
    rw [(prove_eq_ok _ _ _ _).mpr hvalid]
    rfl

theorem isOk_access_iff {n : ℕ} {s : Slice n} :
    (S.access s).isOk = true ↔ ∃ input, S.access s = .ok input := by
  cases S.access s <;> simp

section
variable {r : S.category.Rebased} {d : LayoutDescriptor}
  (hlayout : S.category.layout r = some d)

theorem payloadEnum_category : S.category.payloadEnum = none :=
  payloadEnum_eq_none (Or.inl (isPayload_of_isPath S.path))

include hlayout

/-- The span is checked as access checks it. -/
theorem read_eq {n : ℕ} (s : Slice n) : d.read s =
    if n = S.wire.size ∧ s.address % S.wire.align = 0 then d.decode s.bytes.toList else none := by
  obtain ⟨hsize, halign⟩ := layout_size S.path hlayout
  unfold LayoutDescriptor.read
  rw [hsize, halign]

/-- Rightly described spans are read as they are accessed. -/
theorem describedBy_of_sameStorage (hsame : S.category.SameStorage r) : S.DescribedBy d := by
  have hrealizes {n : ℕ} {s : Slice n} {input : Input S.wire}
      (hchecked : Input.fromChecked S.wire s = .ok input) :
      Realizes (d.read s) (S.category.Represents 0 input.bytes) S.category.datum := by
    obtain ⟨hn, halign, -, hbytes⟩ := fromChecked_eq_ok.mp hchecked
    rw [read_eq hlayout, if_pos ⟨hn, halign⟩, ← hbytes]
    exact emitted_realizes S.category S.accepted hsame (emitted_layout S.path hlayout) [] _ input
      (tagLink_of_payloadEnum payloadEnum_category) (span_whole _) fun _ => rfl
  intro n s
  constructor
  · rw [isOk_access_iff]
    constructor
    · intro hread
      obtain ⟨x, hx⟩ := Option.isSome_iff_exists.mp hread
      rw [read_eq hlayout] at hx
      split_ifs at hx with hfit
      obtain ⟨hn, halign⟩ := hfit
      subst hn
      obtain ⟨input, hchecked, -⟩ := fromChecked_exact s (Nat.dvd_of_mod_eq_zero halign)
      obtain ⟨v, hv⟩ := (hrealizes hchecked).isSome_iff.mp hread
      exact ⟨input, access_eq_ok.mpr ⟨hchecked, hv.valid⟩⟩
    · rintro ⟨input, haccess⟩
      obtain ⟨hchecked, hvalid⟩ := access_eq_ok.mp haccess
      exact (hrealizes hchecked).isSome_iff.mpr ((S.category.valid_iff 0 input).mp hvalid)
  · intro input haccess
    obtain ⟨hchecked, hvalid⟩ := access_eq_ok.mp haccess
    obtain ⟨v, hv⟩ := (S.category.valid_iff 0 input).mp hvalid
    exact ⟨v, materialize_eq S.category input hv, (hrealizes hchecked).eq_some hv⟩

/-- Another size in the metadata shows in some span. -/
theorem sameStorage_of_describedBy (hfits : S.wire.size ≤ isizeMax) (h : S.DescribedBy d) :
    S.category.SameStorage r := by
  by_contra hdiff
  have hopt : S.category.isOptional = false := isOptional_eq_false (Or.inl S.path)
  obtain ⟨tag, b, v, htag, hv, hmisread⟩ := emitted_misread S.category S.accepted hfits
    (sameSize_of_isOptional hopt) hdiff (emitted_layout S.path hlayout)
  obtain rfl := htag.2 payloadEnum_category
  let input : Input S.wire := ⟨0, b, Nat.dvd_zero _, hfits⟩
  have haccess : S.access ⟨0, b, hfits⟩ = .ok input :=
    access_eq_ok.mpr ⟨fromChecked_eq_ok.mpr ⟨rfl, Nat.zero_mod _, rfl, rfl⟩,
      (S.category.valid_iff 0 input).mpr ⟨v, hv⟩⟩
  obtain ⟨w, hw, hread⟩ := (h S.wire.size ⟨0, b, hfits⟩).2 input haccess
  have hvw : v = w := Option.some.inj ((materialize_eq S.category input hv).symm.trans hw)
  rw [read_eq hlayout, if_pos ⟨rfl, Nat.zero_mod _⟩, ← hvw] at hread
  refine hmisread [] b.toList (tagLink_of_payloadEnum payloadEnum_category) (span_whole b) ?_ hread
  intro _
  rfl

end

/-- Where no path starts with `self` or `super`, the metadata is emitted and describes the
codec. -/
theorem exists_describedBy (S : Schema) :
    ∃ d, S.category.layout S.category.plain = some d ∧ S.DescribedBy d := by
  obtain ⟨d, hd⟩ := (emits_plain S.category S.accepted).layout S.path
  exact ⟨d, hd, describedBy_of_sameStorage hd (sameStorage_plain S.category)⟩

end

/-- The layout describes the codec exactly when, for every optional field, the spelling of its
inner type that the metadata is computed from denotes a wire that fills the same storage; and
what the decoder yields tells any two logical values apart. -/
theorem layout_describes_access [Target] (S : Schema) (r : S.category.Rebased)
    (d : LayoutDescriptor) (hlayout : S.category.layout r = some d)
    (hfits : S.wire.size ≤ isizeMax) :
    Function.Injective S.category.datum ∧ (S.DescribedBy d ↔ S.category.SameStorage r) := by
  refine ⟨datum_injective S.category, ?_, ?_⟩
  · exact sameStorage_of_describedBy hlayout hfits
  · exact describedBy_of_sameStorage hlayout

section
attribute [local instance] Target.lp64

/-- The metadata of `Envelope`. -/
def envelopeLayout : LayoutDescriptor :=
  (envelope.category.layout envelope.category.plain).get (by decide)

theorem layout_describes_access_envelope : Function.Injective envelope.category.datum ∧
    (envelope.DescribedBy envelopeLayout ↔
      envelope.category.SameStorage envelope.category.plain) :=
  layout_describes_access envelope envelope.category.plain envelopeLayout
    (Option.some_get _).symm (by decide)

/-- The module around the declaration has a one-byte `Mode` of its own. -/
def outerMode : wideModed.category.Rebased := fun _ => (noZero.repr.layout, ())

/-- `Mode::On` in little-endian bytes. -/
def lateMode : Slice wideModed.wire.size where
  address := 64
  bytes := ⟨[0, 1], by decide⟩
  fits := by decide

/-- Whether a field of a record is absent. -/
def hasAbsent : Datum → Bool
  | .record _ values => (List.finRange _).any fun i => (values i).isAbsent
  | _ => false

/-- The metadata says one byte for `Option<self::Mode>`, so the decoder takes a mode whose first
byte is zero for an absent one. -/
theorem layout_misses_storage : ∃ d, wideModed.category.layout outerMode = some d ∧
    ∃ input v, wideModed.access lateMode = .ok input ∧
      wideModed.category.materialize 0 input = some v ∧
      d.read lateMode ≠ some (wideModed.category.datum v) := by
  refine ⟨_, rfl, _, _, rfl, rfl, ?_⟩
  intro h
  have habsent := congrArg (Option.map hasAbsent) h
  exact absurd habsent (by decide)

end

end Schema

end ZeroSchema
