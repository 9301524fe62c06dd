import ZeroSchema.Analysis.Options
import ZeroSchema.Library.Pass

/-! The variants of scalar enums and of tagged payloads. -/
namespace ZeroSchema
open Control

inductive VariantFields
  | unit
  | unnamed (types : List SynType)
  | named (types : List SynType)

inductive Discriminant
  | literal (literal : LitInt)
  | other

structure VariantItem where
  ident : String
  attrs : List Attribute
  fields : VariantFields
  discriminant : Option Discriminant

/-- The payload of a tagged variant: none for a unit variant. The tag and the path of its enum are
as they are written. -/
structure TaggedVariant where
  ident : String
  payload : Option SynType
  tag : TagPath
  owner : TagPath

/-- The text of a path as a stream of tokens. -/
def TagPath.text (p : TagPath) : String :=
  (if p.leadingColon then ":: " else "") ++ " :: ".intercalate p.segments

/-! ### Scalar enums -/

/-- One item of a `repr` attribute, behind the integer that was found before. -/
def reprItem (found : Option WireInt) (item : Item) : Except (List String) (Option WireInt) :=
  match item with
  | .error message => .error [message]
  | .ok m =>
    match m.path with
    | [name] =>
      match WireInt.ofIdent name with
      | none => .error ["scalar enums require repr(u8), repr(u16), or repr(u32)"]
      | some repr =>
        if found.isSome then .error ["scalar enums require exactly one integer repr"]
        else .ok (some repr)
    | _ => .error ["scalar enums require repr(u8), repr(u16), or repr(u32)"]

def scalarRepr (attrs : List Attribute) : Except (List String) WireInt := do
  let items := (attrs.filter (·.name = "repr")).flatMap (·.items)
  match ← items.foldlM reprItem none with
  | some repr => .ok repr
  | none => .error ["fieldless scalar enums require repr(u8), repr(u16), or repr(u32)"]

def discriminantValue (expression : Discriminant) (repr : WireInt) : Except (List String) ℕ :=
  match expression with
  | .literal literal => (literal.discriminantValue repr).mapError fun message => [message]
  | .other => .error ["scalar enum discriminants must be integer literals"]

/-- The discriminant of a variant apart from the ones before it. -/
def rawDiscriminant (repr : WireInt) (variant : VariantItem) : Except (List String) ℕ :=
  match variant.fields with
  | .unit =>
    match variant.discriminant with
    | some expression => discriminantValue expression repr
    | none => .error ["scalar enum variants require an explicit integer discriminant"]
  | _ => .error ["scalar enum variants must be fieldless"]

def analyzeScalarVariants {n : ℕ} (variants : Fin n → VariantItem) (repr : WireInt) :
    Except (List String) (List ℕ) :=
  gather fun rawValues i => do
    let value ← rawDiscriminant repr (variants i)
    if value ∈ rawValues then .error ["scalar enum discriminants must be unique"] else .ok value

/-! ### Tagged payloads -/

/-- The path without its last segment. -/
def TagPath.parent (p : TagPath) : TagPath := { p with segments := p.segments.dropLast }

def tagOwnerPath (tag : TagPath) : Except (List String) TagPath :=
  if tag.segments.length < 2 then
    .error ["tag must name a scalar-enum variant such as Kind::Value"]
  else .ok tag.parent

def variantShape : VariantFields → Except (List String) (Option SynType)
  | .unit => .ok none
  | .unnamed [ty] =>
    if ty.pathEndsInOption then
      .error ["Option<T> cannot be used as a tagged payload; an externally tagged payload has no standalone optional sentinel"]
    else .ok (some ty)
  | _ => .error ["tagged enum variants must be unit or single-field newtype variants"]

section
variable [Syn]

/-- A variant behind the variants before it: their tags are taken, and the first of them tells
the enum that the tags belong to. -/
def taggedVariant (before : List TaggedVariant) (variant : VariantItem) :
    Except (List String) TaggedVariant := do
  match ← variantOptions variant.attrs with
  | none => .error ["tagged enum variants require #[zero(tag = ScalarEnum::Variant)]"]
  | some tag =>
    if tag.text ∈ before.map fun other => other.tag.text then
      .error ["tagged enum variant tags must be unique"]
    else
      let owner ← tagOwnerPath tag
      if ∃ previous ∈ before.head?, previous.owner.text ≠ owner.text then
        .error ["all tagged enum variants must use values from the same scalar enum"]
      else
        let payload ← variantShape variant.fields
        .ok ⟨variant.ident, payload, tag, owner⟩

def analyzeTaggedVariants {n : ℕ} (variants : Fin n → VariantItem) :
    Except (List String) (List TaggedVariant) :=
  gather fun before i => taggedVariant before (variants i)

end

/-! ### What is accepted -/

theorem mapError_eq_ok {ε ε' α : Type} {f : ε → ε'} {x : Except ε α} {a : α} :
    x.mapError f = .ok a ↔ x = .ok a := by
  cases x <;> simp [Except.mapError]

theorem WireInt.ofIdent_eq_some {name : String} {w : WireInt} :
    WireInt.ofIdent name = some w ↔ name = w.ident := by
  unfold WireInt.ofIdent
  split_ifs with hu8 hu16 hu32
  · cases w <;> simp [hu8, WireInt.ident]
  · cases w <;> simp [hu16, WireInt.ident]
  · cases w <;> simp [hu32, WireInt.ident]
  · cases w <;> simp [hu8, hu16, hu32, WireInt.ident]

theorem reprItem_eq_ok {found next : Option WireInt} {item : Item} :
    reprItem found item = .ok next ↔
      found = none ∧ ∃ w value, item = .ok ⟨[w.ident], value⟩ ∧ next = some w := by
  constructor
  · intro h
    cases item with
    | error message => cases h
    | ok m =>
      obtain ⟨path, value⟩ := m
      unfold reprItem at h
      dsimp only at h
      split at h
      · next name =>
        split at h
        · cases h
        · next w hw =>
          split_ifs at h with hfound
          rw [WireInt.ofIdent_eq_some.mp hw]
          exact ⟨by simpa using hfound, w, value, rfl, (Except.ok.inj h).symm⟩
      · cases h
  · intro ⟨hfound, w, value, hitem, hnext⟩
    rw [hfound, hitem, hnext]
    cases w <;> rfl

/-- Exactly one integer is declared as the representation. -/
theorem scalarRepr_eq_ok {attrs : List Attribute} {w : WireInt} : scalarRepr attrs = .ok w ↔
    ∃ value, (attrs.filter (·.name = "repr")).flatMap (·.items) = [.ok ⟨[w.ident], value⟩] := by
  unfold scalarRepr
  dsimp only
  cases (attrs.filter (·.name = "repr")).flatMap (·.items) with
  | nil =>
    refine iff_of_false ?_ (by simp)
    intro h
    cases h
  | cons item rest =>
    rw [List.foldlM_cons]
    constructor
    · intro h
      obtain ⟨found, hfound, h⟩ := except_bind_ok h
      obtain ⟨first, hfirst, hrest⟩ := except_bind_ok hfound
      obtain ⟨-, w', value, hitem, hsome⟩ := reprItem_eq_ok.mp hfirst
      cases rest with
      | nil =>
        obtain rfl : first = found := Except.ok.inj hrest
        rw [hsome] at h
        rw [hitem, ← Except.ok.inj h]
        exact ⟨value, rfl⟩
      | cons second rest =>
        rw [List.foldlM_cons] at hrest
        obtain ⟨next, hnext, -⟩ := except_bind_ok hrest
        rw [hsome] at hnext
        cases (reprItem_eq_ok.mp hnext).1
    · intro ⟨value, heq⟩
      obtain ⟨hitem, hrest⟩ := List.cons.inj heq
      rw [hrest, reprItem_eq_ok.mpr ⟨rfl, w, value, hitem, rfl⟩]
      rfl

theorem rawDiscriminant_eq_ok {repr : WireInt} {variant : VariantItem} {v : ℕ} :
    rawDiscriminant repr variant = .ok v ↔ variant.fields = .unit ∧
      ∃ literal, variant.discriminant = some (.literal literal) ∧ literal.suffix = "" ∧
        literal.Denotes v ∧ v < 256 ^ repr.bytes := by
  unfold rawDiscriminant discriminantValue
  cases variant.fields with
  | unit =>
    cases variant.discriminant with
    | none => simp
    | some expression =>
      cases expression with
      | literal literal => simp [mapError_eq_ok, LitInt.discriminantValue_eq_ok]
      | other => simp
  | unnamed types => simp
  | named types => simp

section
variable {n : ℕ} {variants : Fin n → VariantItem}

/-- The discriminants are what the literals of the variants mean, and no two are the same. -/
theorem analyzeScalarVariants_eq_ok {repr : WireInt} {values : List ℕ} :
    analyzeScalarVariants variants repr = .ok values ↔
      values.length = n ∧ values.Nodup ∧ ∀ i : Fin n, ∃ v, values[i.val]? = some v ∧
        rawDiscriminant repr (variants i) = .ok v := by
  unfold analyzeScalarVariants
  rw [gather_eq_ok]
  have hnext (i : Fin n) (before : List ℕ) (v : ℕ) :
      (do
        let value ← rawDiscriminant repr (variants i)
        if value ∈ before then .error ["scalar enum discriminants must be unique"]
        else .ok value) = Except.ok v ↔
      rawDiscriminant repr (variants i) = .ok v ∧ v ∉ before := by
    constructor
    · intro h
      obtain ⟨value, hvalue, h⟩ := except_bind_ok h
      split_ifs at h with hmem
      obtain rfl := Except.ok.inj h
      exact ⟨hvalue, hmem⟩
    · intro ⟨hvalue, hmem⟩
      rw [hvalue]
      exact if_neg hmem
  simp only [hnext]
  refine and_congr_right fun hlength => ?_
  constructor
  · intro h
    refine ⟨nodup_iff_take.mpr ?_, ?_⟩
    · intro i a ha
      have hi : i < n := hlength ▸ (List.getElem?_eq_some_iff.mp ha).1
      obtain ⟨v, hv, -, hnot⟩ := h ⟨i, hi⟩
      rwa [Option.some.inj (ha.symm.trans hv)]
    · intro i
      obtain ⟨v, hv, hraw, -⟩ := h i
      exact ⟨v, hv, hraw⟩
  · intro ⟨hnodup, hraw⟩ i
    obtain ⟨v, hv, hvalue⟩ := hraw i
    exact ⟨v, hv, hvalue, nodup_iff_take.mp hnodup i v hv⟩

variable [Syn]

/-- A variant of a tagged payload as it is declared. -/
def TaggedVariant.Declares (v : TaggedVariant) (variant : VariantItem) : Prop :=
  v.ident = variant.ident ∧ variantOptions variant.attrs = .ok (some v.tag) ∧
    2 ≤ v.tag.segments.length ∧ v.owner = v.tag.parent ∧
    (variant.fields = .unit ∧ v.payload = none ∨
      ∃ ty, variant.fields = .unnamed [ty] ∧ ty.pathEndsInOption = false ∧ v.payload = some ty)

omit [Syn] in
theorem variantShape_eq_ok {fields : VariantFields} {payload : Option SynType} :
    variantShape fields = .ok payload ↔ fields = .unit ∧ payload = none ∨
      ∃ ty, fields = .unnamed [ty] ∧ ty.pathEndsInOption = false ∧ payload = some ty := by
  unfold variantShape
  split
  · cases payload <;> simp
  · next ty =>
    split_ifs with hoption
    · simp [hoption]
    · constructor
      · intro h
        exact Or.inr ⟨ty, rfl, by simpa using hoption, (Except.ok.inj h).symm⟩
      · intro h
        rcases h with ⟨hfields, -⟩ | ⟨ty', hfields, -, hpayload⟩
        · cases hfields
        · cases hfields
          rw [hpayload]
  · next hunit hsingle =>
    refine iff_of_false (by simp) ?_
    intro h
    rcases h with ⟨hfields, -⟩ | ⟨ty, hfields, -⟩
    · exact hunit hfields
    · exact hsingle ty hfields

theorem taggedVariant_eq_ok {before : List TaggedVariant} {variant : VariantItem}
    {v : TaggedVariant} : taggedVariant before variant = .ok v ↔ v.Declares variant ∧
      v.tag.text ∉ before.map (fun other => other.tag.text) ∧
      ∀ previous ∈ before.head?, previous.owner.text = v.owner.text := by
  unfold taggedVariant
  constructor
  · intro h
    obtain ⟨option, hoption, h⟩ := except_bind_ok h
    cases option with
    | none => cases h
    | some tag =>
      dsimp only at h
      split_ifs at h with hrepeated
      obtain ⟨owner, howner, h⟩ := except_bind_ok h
      unfold tagOwnerPath at howner
      split_ifs at howner with hshort
      obtain rfl := Except.ok.inj howner
      split_ifs at h with hforeign
      obtain ⟨payload, hpayload, h⟩ := except_bind_ok h
      obtain rfl := Except.ok.inj h
      push Not at hforeign
      exact ⟨⟨rfl, hoption, Nat.le_of_not_lt hshort, rfl, variantShape_eq_ok.mp hpayload⟩,
        hrepeated, hforeign⟩
  · intro ⟨⟨hident, hoption, hlong, howner, hpayload⟩, hrepeated, hsame⟩
    have hforeign : ¬∃ previous ∈ before.head?, previous.owner.text ≠ v.owner.text := by
      push Not
      exact hsame
    have hpath : tagOwnerPath v.tag = .ok v.owner := by
      unfold tagOwnerPath
      rw [if_neg (Nat.not_lt.mpr hlong), howner]
    rw [hoption]
    show (if _ then _ else _) = _
    rw [if_neg hrepeated, hpath]
    show (if _ then _ else _) = _
    rw [if_neg hforeign, variantShape_eq_ok.mpr hpayload, ← hident]
    rfl

/-- The variants carry different tags, all of them spelled below the path of one enum. -/
theorem analyzeTaggedVariants_eq_ok {tagged : List TaggedVariant} :
    analyzeTaggedVariants variants = .ok tagged ↔
      tagged.length = n ∧ (tagged.map fun v => v.tag.text).Nodup ∧
        (∀ v ∈ tagged, ∀ w ∈ tagged, v.owner.text = w.owner.text) ∧
        ∀ i : Fin n, ∃ v, tagged[i.val]? = some v ∧ v.Declares (variants i) := by
  unfold analyzeTaggedVariants
  rw [gather_eq_ok]
  simp only [taggedVariant_eq_ok]
  refine and_congr_right fun hlength => ?_
  have hindex (i : ℕ) (v : TaggedVariant) (hv : tagged[i]? = some v) : i < n :=
    hlength ▸ (List.getElem?_eq_some_iff.mp hv).1
  have htext (i : ℕ) (text : String) (h : (tagged.map fun v => v.tag.text)[i]? = some text) :
      ∃ v, tagged[i]? = some v ∧ v.tag.text = text := by
    rwa [List.getElem?_map, Option.map_eq_some_iff] at h
  have hhead (i : ℕ) (previous : TaggedVariant) (h : previous ∈ (tagged.take i).head?) :
      tagged.head? = some previous := by
    cases tagged with
    | nil => simp at h
    | cons first rest =>
      cases i with
      | zero => simp at h
      | succ i => simpa using h
  constructor
  · intro h
    have hfirst (v : TaggedVariant) (hv : v ∈ tagged) :
        ∀ first ∈ tagged.head?, first.owner.text = v.owner.text := by
      intro first hfirst
      obtain ⟨i, hi, rfl⟩ := List.getElem_of_mem hv
      cases i with
      | zero =>
        have hzero : tagged.head? = some tagged[0] := by
          rw [List.head?_eq_getElem?, List.getElem?_eq_getElem hi]
        rw [Option.mem_def, hzero] at hfirst
        rw [Option.some.inj hfirst]
      | succ i =>
        obtain ⟨v, hv, -, -, hsame⟩ := h ⟨i + 1, hlength ▸ hi⟩
        rw [List.getElem?_eq_getElem hi, Option.some.injEq] at hv
        rw [hv]
        refine hsame first ?_
        cases tagged with
        | nil => cases hfirst
        | cons head rest => exact hfirst
    refine ⟨nodup_iff_take.mpr ?_, ?_, ?_⟩
    · intro i text hi
      obtain ⟨v, hv, rfl⟩ := htext i text hi
      obtain ⟨w, hw, -, hnot, -⟩ := h ⟨i, hindex i v hv⟩
      rw [Option.some.inj (hv.symm.trans hw), ← List.map_take]
      exact hnot
    · intro v hv w hw
      cases hhd : tagged.head? with
      | none =>
        rw [List.head?_eq_none_iff.mp hhd] at hv
        cases hv
      | some first => exact (hfirst v hv first hhd).symm.trans (hfirst w hw first hhd)
    · intro i
      obtain ⟨v, hv, hdeclares, -⟩ := h i
      exact ⟨v, hv, hdeclares⟩
  · intro ⟨hnodup, howner, hdeclares⟩ i
    obtain ⟨v, hv, hvariant⟩ := hdeclares i
    refine ⟨v, hv, hvariant, ?_, ?_⟩
    · have hnot := nodup_iff_take.mp hnodup i v.tag.text (by rw [List.getElem?_map, hv]; rfl)
      rwa [← List.map_take] at hnot
    · intro previous hprevious
      have hmem : previous ∈ tagged := List.mem_of_mem_head? (hhead i previous hprevious)
      exact howner previous hmem v (List.mem_of_getElem? hv)

end

end ZeroSchema
