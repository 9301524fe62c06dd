import ZeroSchema.Analysis.Link
import ZeroSchema.Analysis.Shape
import ZeroSchema.Analysis.Variants

/-! The analysis of a declaration: from the item that carries the attribute to the analyzed form
that code is generated from. -/
namespace ZeroSchema
open Control

structure FieldItem where
  ident : String
  attrs : List Attribute
  ty : SynType

/-- What kind of item a declaration is. -/
inductive Body
  | named (fields : List FieldItem)
  | unnamed
  | enum (variants : List VariantItem)
  | union
  | other

/-- An item, with its lifetime parameters and the attributes of all its parameters. -/
structure Declaration where
  ident : String
  attrs : List Attribute
  lifetimes : List String
  paramAttrs : List Attribute
  body : Body

/-- A declaration that has been analyzed. -/
inductive Analyzed
  | struct (ident : String) (align : Option ℕ) (fields : List DeclaredField)
    (links : Fin fields.length → Option (Fin fields.length))
  | scalarEnum (ident : String) (ir : EnumIr) (variants : List VariantItem)
  | taggedEnum (ident : String) (variants : List TaggedVariant)

/-! ### Structs -/

section
variable [Host] [Syn]

def analyzeStructField (defaultEndian : WireEndian) (field : FieldItem) :
    Except (List String) DeclaredField := do
  let options ← fieldOptions field.attrs
  match h : analyzeField field.ty options.toFieldOptions defaultEndian with
  | .ok category => .ok ⟨field.ident, field.ty, options, defaultEndian, category, h⟩
  | .error message => .error [message]

def analyzeStruct (ident : String) (options : ContainerOptions) (fields : List FieldItem) :
    Outcome (List String) Analyzed :=
  if fields = [] then .err ["schema structs must contain at least one field"]
  else do
    let declared ← Outcome.ofExcept (fields.mapM (analyzeStructField options.endian))
    let links ← (linkExternalTags declared.get).mapErr fun message => [message]
    .ok (.struct ident options.align declared links)

end

/-! ### Enums -/

section
variable {n : ℕ} {variants : Fin n → VariantItem} {repr : WireInt} {values : List ℕ}

theorem values_ne_nil (hn : n ≠ 0) (h : analyzeScalarVariants variants repr = .ok values) :
    values ≠ [] := by
  have hlength := (analyzeScalarVariants_eq_ok.mp h).1
  intro hnil
  rw [hnil] at hlength
  exact hn hlength.symm

theorem values_nodup (h : analyzeScalarVariants variants repr = .ok values) : values.Nodup :=
  (analyzeScalarVariants_eq_ok.mp h).2.1

theorem values_fit (h : analyzeScalarVariants variants repr = .ok values) :
    ∀ value ∈ values, value < 256 ^ repr.bytes := by
  obtain ⟨hlength, -, hraw⟩ := analyzeScalarVariants_eq_ok.mp h
  intro value hvalue
  obtain ⟨i, hi, rfl⟩ := List.getElem_of_mem hvalue
  obtain ⟨v, hv, hraw⟩ := hraw ⟨i, hlength ▸ hi⟩
  rw [List.getElem?_eq_getElem hi, Option.some.injEq] at hv
  rw [hv]
  obtain ⟨-, literal, -, -, -, hlt⟩ := rawDiscriminant_eq_ok.mp hraw
  exact hlt

/-- The analyzed form of a scalar enum. -/
def scalarEnumIr (ident : String) (endian : WireEndian) (hn : n ≠ 0)
    (h : analyzeScalarVariants variants repr = .ok values) : EnumIr where
  logicalName := normalizedIdent ident
  repr := repr
  endian := endian
  discriminants := values
  nonempty := values_ne_nil hn h
  nodup := values_nodup h
  fits := values_fit h

end

/-- An enum with an option on some variant is a tagged payload. -/
def analyzeEnum [Syn] (ident : String) (attrs : List Attribute) (options : ContainerOptions)
    (variants : List VariantItem) : Except (List String) Analyzed :=
  if hempty : variants.length = 0 then
    .error ["schema enums must contain at least one variant"]
  else if variants.any fun variant => variant.attrs.any isZero then
    if options.endianGiven then
      .error ["endian is not applicable to a tagged payload declaration"]
    else if options.align.isSome then
      .error ["align is not applicable to a tagged payload declaration"]
    else if options.borrow.isSome then
      .error ["borrow is not applicable to a tagged payload declaration"]
    else (analyzeTaggedVariants variants.get).map (.taggedEnum ident)
  else if options.align.isSome ∨ options.borrow.isSome then
    .error ["this option is not applicable to a scalar enum"]
  else do
    let repr ← scalarRepr attrs
    match h : analyzeScalarVariants variants.get repr with
    | .ok _ => .ok (.scalarEnum ident (scalarEnumIr ident options.endian hempty h) variants)
    | .error messages => .error messages

/-! ### Declarations -/

/-- A category that borrows its value from the source. -/
def FieldCategory.isBorrowed : FieldCategory → Bool
  | fixedBytes _ => true
  | c => c.isString

/-- The lifetime that a field borrows its value for. -/
def directLifetime : SynType → FieldCategory → Option String
  | .array elem _, .array element _ => directLifetime elem element
  | .reference lifetime _ _, category => if category.isBorrowed then lifetime else none
  | _, _ => none

/-- One lifetime of the source may be borrowed, and if there are several, one is told. -/
def genericModel (declared direct : List String) (requested : Option String) :
    Except (List String) Unit :=
  match requested with
  | some lifetime =>
    if lifetime ∉ declared then
      .error ["borrow must name one of this declaration's lifetime parameters"]
    else if lifetime ∉ direct then
      .error ["borrow must name a lifetime used by a direct borrowed field"]
    else .ok ()
  | none =>
    if direct.dedup.length ≤ 1 then .ok ()
    else .error ["multiple borrowed source lifetimes require #[zero(borrow = 'lifetime)]"]

def rejectMisplacedZeroAttributes (d : Declaration) : Except (List String) Unit :=
  match d.body with
  | .other => .ok ()
  | _ =>
    match (d.paramAttrs.filter isZero).map fun _ =>
      "#[zero] is only allowed on the item, named fields, or tagged-enum variants" with
    | [] => .ok ()
    | messages => .error messages

namespace Analyzed

def directLifetimes : Analyzed → List String
  | struct _ _ fields _ => fields.filterMap fun field => directLifetime field.ty field.category
  | _ => []

theorem field_isAnalyzed (field : DeclaredField) : field.category.isAnalyzed = true :=
  analyzeField_isAnalyzed field.analyzed

/-- What the check of generated names looks at. -/
def schemaIr : Analyzed → SchemaIr
  | struct ident _ fields links => .struct ident (List.ofFn fun i =>
      { ident := (fields.get i).ident
        declarationIndex := i
        category := (fields.get i).category
        tagField := (links i).map Fin.val
        analyzed := field_isAnalyzed (fields.get i) })
  | scalarEnum ident _ variants => .scalarEnum ident (variants.map fun variant =>
      { ident := variant.ident, isUnit := true })
  | taggedEnum ident variants => .taggedEnum ident (variants.map fun variant =>
      { ident := variant.ident, isUnit := variant.payload.isNone })

end Analyzed

section
variable [Host] [Syn]

def analyzeBody (d : Declaration) (options : ContainerOptions) : Outcome (List String) Analyzed :=
  match d.body with
  | .named fields => analyzeStruct d.ident options fields
  | .unnamed => .err ["#[zero] structs must have named fields"]
  | .enum variants => Outcome.ofExcept (analyzeEnum d.ident d.attrs options variants)
  | .union => .err ["#[zero] does not support unions"]
  | .other => .err ["#[zero] supports only module-scope named structs and enums"]

def analyze [Casing] (args : List Item) (d : Declaration) : Outcome (List String) Analyzed := do
  let options ← Outcome.ofExcept (containerOptions args d.attrs)
  Outcome.ofExcept (rejectMisplacedZeroAttributes d)
  let analyzed ← analyzeBody d options
  Outcome.ofExcept (genericModel d.lifetimes analyzed.directLifetimes options.borrow)
  Outcome.ofExcept (analyzed.schemaIr.validateGeneratedNames.mapError fun message => [message])
  .ok analyzed

end

/-! ### What an analyzed declaration is -/

def Analyzed.Sound : Analyzed → Prop
  | struct _ align fields links => fields ≠ [] ∧ linkExternalTags fields.get = .ok links ∧
      (∀ value ∈ align, IsAlignment value) ∧
      ∀ field ∈ fields, ∀ value ∈ field.options.align, IsAlignment value
  | scalarEnum _ _ _ => True
  | taggedEnum _ variants => variants ≠ [] ∧ (variants.map fun v => v.tag.text).Nodup ∧
      ∀ v ∈ variants, ∀ w ∈ variants, v.tag.parent.text = w.tag.parent.text

theorem ofExcept_eq_ok {ε α : Type} {x : Except ε α} {v : α} :
    Outcome.ofExcept x = .ok v ↔ x = .ok v := by
  cases x <;> simp [Outcome.ofExcept]

section
variable [Host] [Syn] {a : Analyzed}

theorem analyzeStructField_align {endian : WireEndian} {item : FieldItem} {field : DeclaredField}
    (h : analyzeStructField endian item = .ok field) :
    ∀ value ∈ field.options.align, IsAlignment value := by
  intro value hvalue
  obtain ⟨options, hoptions, h⟩ := except_bind_ok h
  split at h
  · obtain rfl := Except.ok.inj h
    exact fieldOptions_align hoptions hvalue
  · cases h

theorem analyzeStruct_sound {ident : String} {options : ContainerOptions} {items : List FieldItem}
    (halign : ∀ value ∈ options.align, IsAlignment value)
    (h : analyzeStruct ident options items = .ok a) : a.Sound := by
  unfold analyzeStruct at h
  split_ifs at h with hempty
  obtain ⟨fields, hfields, h⟩ := Outcome.bind_eq_ok.mp h
  obtain ⟨links, hlinks, h⟩ := Outcome.bind_eq_ok.mp h
  obtain rfl := Outcome.ok.inj h
  have hforall := mapM_eq_ok.mp (ofExcept_eq_ok.mp hfields)
  refine ⟨?_, Outcome.mapErr_eq_ok.mp hlinks, halign, ?_⟩
  · intro hnil
    rw [hnil, List.forall₂_nil_right_iff] at hforall
    exact hempty hforall
  · intro field hfield
    have hitem := spelled_of_mem hforall hfield
    obtain ⟨item, hitem⟩ := hitem
    exact analyzeStructField_align hitem

omit [Host] in
theorem analyzeEnum_sound {ident : String} {attrs : List Attribute} {options : ContainerOptions}
    {variants : List VariantItem} (h : analyzeEnum ident attrs options variants = .ok a) :
    a.Sound := by
  unfold analyzeEnum at h
  split_ifs at h with hempty htagged hendian halign hborrow hoption
  · obtain ⟨tagged, hvariants, rfl⟩ := except_map_ok h
    obtain ⟨hlength, hnodup, howner, hdeclares⟩ := analyzeTaggedVariants_eq_ok.mp hvariants
    have hparent (v : TaggedVariant) (hv : v ∈ tagged) : v.owner = v.tag.parent := by
      obtain ⟨i, hi, rfl⟩ := List.getElem_of_mem hv
      obtain ⟨w, hw, hdeclared⟩ := hdeclares ⟨i, hlength ▸ hi⟩
      rw [List.getElem?_eq_getElem hi, Option.some.injEq] at hw
      rw [hw]
      exact hdeclared.2.2.2.1
    refine ⟨?_, hnodup, ?_⟩
    · intro hnil
      rw [hnil] at hlength
      exact hempty hlength.symm
    · intro v hv w hw
      rw [← hparent v hv, ← hparent w hw]
      exact howner v hv w hw
  · obtain ⟨repr, -, h⟩ := except_bind_ok h
    split at h
    · obtain rfl := Except.ok.inj h
      trivial
    · cases h

/-- What the analysis of a declaration establishes. -/
theorem analyze_sound [Casing] {args : List Item} {d : Declaration}
    (h : analyze args d = .ok a) : a.Sound := by
  unfold analyze at h
  obtain ⟨options, hoptions, h⟩ := Outcome.bind_eq_ok.mp h
  obtain ⟨-, -, h⟩ := Outcome.bind_eq_ok.mp h
  obtain ⟨analyzed, hanalyzed, h⟩ := Outcome.bind_eq_ok.mp h
  obtain ⟨-, -, h⟩ := Outcome.bind_eq_ok.mp h
  obtain ⟨-, -, h⟩ := Outcome.bind_eq_ok.mp h
  obtain rfl := Outcome.ok.inj h
  have halign (value : ℕ) (hvalue : value ∈ options.align) : IsAlignment value :=
    containerOptions_align (ofExcept_eq_ok.mp hoptions) hvalue
  unfold analyzeBody at hanalyzed
  split at hanalyzed
  · exact analyzeStruct_sound halign hanalyzed
  · cases hanalyzed
  · exact analyzeEnum_sound (ofExcept_eq_ok.mp hanalyzed)
  · cases hanalyzed
  · cases hanalyzed

end

/-! ### Enums without the passes -/

theorem forall₂_iff_getElem? {α β : Type} {R : α → β → Prop} {items : List α} {values : List β} :
    List.Forall₂ R items values ↔ values.length = items.length ∧
      ∀ i : Fin items.length, ∃ v, values[i.val]? = some v ∧ R (items.get i) v := by
  rw [List.forall₂_iff_get]
  constructor
  · intro ⟨hlength, h⟩
    refine ⟨hlength.symm, ?_⟩
    intro i
    have hi : i.val < values.length := hlength ▸ i.isLt
    exact ⟨values[i.val], List.getElem?_eq_getElem hi, h i i.isLt hi⟩
  · intro ⟨hlength, h⟩
    refine ⟨hlength.symm, ?_⟩
    intro i hi hv
    obtain ⟨v, hget, hR⟩ := h ⟨i, hi⟩
    rw [List.getElem?_eq_getElem hv, Option.some.injEq] at hget
    rw [List.get_eq_getElem (l := values), hget]
    exact hR

/-- A scalar enum: one integer as its representation, and for each variant a literal of its own
that fits. -/
structure DeclaresScalar (attrs : List Attribute) (options : ContainerOptions)
    (variants : List VariantItem) (ir : EnumIr) : Prop where
  nonempty : variants ≠ []
  untagged : (variants.any fun variant => variant.attrs.any isZero) = false
  align : options.align = none
  borrow : options.borrow = none
  repr : ∃ value, (attrs.filter (·.name = "repr")).flatMap (·.items) =
    [.ok ⟨[ir.repr.ident], value⟩]
  endian : ir.endian = options.endian
  discriminants : List.Forall₂ (fun variant value => variant.fields = .unit ∧
    ∃ literal, variant.discriminant = some (.literal literal) ∧ literal.suffix = "" ∧
      literal.Denotes value) variants ir.discriminants

/-- A tagged payload: a tag for each variant, all different and below the path of one enum. -/
structure DeclaresTagged [Syn] (options : ContainerOptions) (variants : List VariantItem)
    (tagged : List TaggedVariant) : Prop where
  nonempty : variants ≠ []
  given : (variants.any fun variant => variant.attrs.any isZero) = true
  endian : options.endianGiven = false
  align : options.align = none
  borrow : options.borrow = none
  declares : List.Forall₂ (fun variant v => v.Declares variant) variants tagged
  tags : (tagged.map fun v => v.tag.text).Nodup
  owner : ∀ v ∈ tagged, ∀ w ∈ tagged, v.owner.text = w.owner.text

section
variable {variants : List VariantItem} {repr : WireInt} {values : List ℕ}

theorem scalarVariants_eq_ok : analyzeScalarVariants variants.get repr = .ok values ↔
    values.Nodup ∧ (∀ value ∈ values, value < 256 ^ repr.bytes) ∧
      List.Forall₂ (fun variant value => variant.fields = .unit ∧
        ∃ literal, variant.discriminant = some (.literal literal) ∧ literal.suffix = "" ∧
          literal.Denotes value) variants values := by
  rw [forall₂_iff_getElem?]
  constructor
  · intro h
    refine ⟨values_nodup h, values_fit h, ?_⟩
    obtain ⟨hlength, -, hraw⟩ := analyzeScalarVariants_eq_ok.mp h
    refine ⟨hlength, ?_⟩
    intro i
    obtain ⟨v, hv, hvalue⟩ := hraw i
    obtain ⟨hunit, literal, hliteral, hsuffix, hdenotes, -⟩ := rawDiscriminant_eq_ok.mp hvalue
    exact ⟨v, hv, hunit, literal, hliteral, hsuffix, hdenotes⟩
  · intro ⟨hnodup, hfit, hlength, hraw⟩
    refine analyzeScalarVariants_eq_ok.mpr ⟨hlength, hnodup, ?_⟩
    intro i
    obtain ⟨v, hv, hunit, literal, hliteral, hsuffix, hdenotes⟩ := hraw i
    have hlt : v < 256 ^ repr.bytes := hfit v (List.mem_of_getElem? hv)
    exact ⟨v, hv, rawDiscriminant_eq_ok.mpr ⟨hunit, literal, hliteral, hsuffix, hdenotes, hlt⟩⟩

theorem taggedVariants_eq_ok [Syn] {tagged : List TaggedVariant} :
    analyzeTaggedVariants variants.get = .ok tagged ↔
      List.Forall₂ (fun variant v => v.Declares variant) variants tagged ∧
        (tagged.map fun v => v.tag.text).Nodup ∧
        ∀ v ∈ tagged, ∀ w ∈ tagged, v.owner.text = w.owner.text := by
  rw [analyzeTaggedVariants_eq_ok, forall₂_iff_getElem?]
  tauto

end

/-- The enums that are accepted are the scalar enums and the tagged payloads of the grammar, and
the analyzed form has what they declare. -/
theorem enums_are_exact [Syn] (ident : String) (attrs : List Attribute)
    (options : ContainerOptions) (variants : List VariantItem) (a : Analyzed) :
    analyzeEnum ident attrs options variants = .ok a ↔
      (∃ ir, a = .scalarEnum ident ir variants ∧ ir.logicalName = normalizedIdent ident ∧
        DeclaresScalar attrs options variants ir) ∨
      ∃ tagged, a = .taggedEnum ident tagged ∧ DeclaresTagged options variants tagged := by
  unfold analyzeEnum
  by_cases hempty : variants.length = 0
  · rw [dif_pos hempty]
    have hnil : variants = [] := List.length_eq_zero_iff.mp hempty
    refine iff_of_false (by simp) ?_
    intro h
    rcases h with ⟨ir, -, -, h⟩ | ⟨tagged, -, h⟩
    · exact h.nonempty hnil
    · exact h.nonempty hnil
  rw [dif_neg hempty]
  have hne : variants ≠ [] := by
    intro hnil
    exact hempty (List.length_eq_zero_iff.mpr hnil)
  by_cases htagged : (variants.any fun variant => variant.attrs.any isZero) = true
  · rw [if_pos htagged]
    constructor
    · intro h
      split_ifs at h with hendian halign hborrow
      obtain ⟨tagged, hvariants, rfl⟩ := except_map_ok h
      obtain ⟨hdeclares, htags, howner⟩ := taggedVariants_eq_ok.mp hvariants
      exact Or.inr ⟨tagged, rfl, hne, htagged, by simpa using hendian, by simpa using halign,
        by simpa using hborrow, hdeclares, htags, howner⟩
    · intro h
      rcases h with ⟨ir, -, -, h⟩ | ⟨tagged, rfl, h⟩
      · rw [h.untagged] at htagged
        cases htagged
      · have hvariants := taggedVariants_eq_ok.mpr ⟨h.declares, h.tags, h.owner⟩
        rw [if_neg (by simp [h.endian]), if_neg (by simp [h.align]), if_neg (by simp [h.borrow]),
          hvariants]
        rfl
  · rw [if_neg htagged]
    constructor
    · intro h
      split_ifs at h with hoption
      push Not at hoption
      obtain ⟨repr, hrepr, h⟩ := except_bind_ok h
      split at h
      · next values hvalues =>
        obtain rfl := Except.ok.inj h
        obtain ⟨-, -, hdiscriminants⟩ := scalarVariants_eq_ok.mp hvalues
        exact Or.inl ⟨_, rfl, rfl, hne, by simpa using htagged, by simpa using hoption.1,
          by simpa using hoption.2, scalarRepr_eq_ok.mp hrepr, rfl, hdiscriminants⟩
      · cases h
    · intro h
      rcases h with ⟨ir, rfl, hname, h⟩ | ⟨tagged, -, h⟩
      · have hvalues : analyzeScalarVariants variants.get ir.repr = .ok ir.discriminants :=
          scalarVariants_eq_ok.mpr ⟨ir.nodup, ir.fits, h.discriminants⟩
        have hoption : ¬(options.align.isSome = true ∨ options.borrow.isSome = true) := by
          simp [h.align, h.borrow]
        rw [if_neg hoption, scalarRepr_eq_ok.mpr h.repr]
        show (match h : analyzeScalarVariants variants.get ir.repr with
          | .ok _ => Except.ok (Analyzed.scalarEnum ident _ variants)
          | .error messages => .error messages) = _
        split
        · next values hok =>
          obtain rfl := Except.ok.inj (hok.symm.trans hvalues)
          have hir : scalarEnumIr ident options.endian hempty hok = ir := by
            obtain ⟨name, repr, endian, discriminants, _, _, _⟩ := ir
            obtain rfl : endian = options.endian := h.endian
            obtain rfl : name = normalizedIdent ident := hname
            rfl
          rw [hir]
        · next messages hfail =>
          rw [hvalues] at hfail
          cases hfail
      · exact absurd h.given htagged

end ZeroSchema
