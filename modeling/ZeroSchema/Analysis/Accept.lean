import ZeroSchema.Analysis.Capacity
import ZeroSchema.Analysis.Expand

/-! What an analyzed declaration expands to. The storage of its fields is what the generated code is
made for, and the generator never fails on what the analysis has accepted. -/
namespace ZeroSchema
open Control

/-- An error that depends on what a declaration refers to. -/
def ExpansionError.Foreign : ExpansionError → Prop
  | emitted _ | zeroSized => False
  | unresolved | zeroLength | zeroValidOption | tagType => True

/-- Storage of a field's type, before it becomes that of a tag sibling or of an optional. -/
structure Stores [Target] (c : FieldCategory) (storage : Category) : Prop where
  accepted : storage.Accepted
  isField : storage.isField = true
  plain : storage.isOptional = false
  untagged : storage.tagEnum = none
  payload : storage.payloadEnum.isSome = true ↔ c = .path true
  inner : ∀ d, c = .optional d → storage.isOptionalInner = true

namespace Environment
variable {env : Environment}

/-- The compiler has accepted the schemas that it knows. -/
def Knows [Target] (env : Environment) : Prop :=
  ∀ ty c, env.schema ty = some c → c.Accepted

theorem wireOf_eq_ok {ty : SynType} {c : Category} :
    env.wireOf ty = .ok c ↔ env.schema ty = some c ∧ c.isPath = true := by
  unfold wireOf
  cases env.schema ty with
  | none => simp
  | some d =>
    dsimp only
    split_ifs with hpath
    · simp only [Outcome.ok.injEq, Option.some.injEq]
      constructor
      · intro h
        exact ⟨h, h ▸ hpath⟩
      · exact And.left
    · refine iff_of_false (by simp) ?_
      intro ⟨h, hc⟩
      rw [Option.some.inj h] at hpath
      exact hpath hc

theorem payloadOf_eq_ok {ty : SynType} {c : Category} :
    env.payloadOf ty = .ok c ↔ env.schema ty = some c ∧ c.payloadEnum.isSome = true := by
  unfold payloadOf
  cases env.schema ty with
  | none => simp
  | some d =>
    dsimp only
    split_ifs with hpayload
    · simp only [Outcome.ok.injEq, Option.some.injEq]
      constructor
      · intro h
        exact ⟨h, h ▸ hpayload⟩
      · exact And.left
    · refine iff_of_false (by simp) ?_
      intro ⟨h, hc⟩
      rw [Option.some.inj h] at hpayload
      exact hpayload hc

theorem wireOf_only {ty : SynType} : (env.wireOf ty).Only ExpansionError.Foreign := by
  unfold wireOf
  split
  · split_ifs <;> trivial
  · trivial

theorem payloadOf_only {ty : SynType} : (env.payloadOf ty).Only ExpansionError.Foreign := by
  unfold payloadOf
  split
  · split_ifs <;> trivial
  · trivial

theorem length_only {len : LengthExpr} : (env.length len).Only ExpansionError.Foreign := by
  unfold length
  split
  · trivial
  · split <;> trivial
  · trivial

/-- A length is nonzero by the analysis, or by the assertion about its constant. -/
theorem length_ne_zero {len : LengthExpr} {length : ArrayLength} {n : ℕ}
    (hlength : ZeroSchema.arrayLength len = .ok length)
    (hzero : ∀ name, length = .symbolic name → env.constant name ≠ some 0)
    (h : env.length len = .ok n) : n ≠ 0 := by
  unfold ZeroSchema.arrayLength at hlength
  split at hlength
  · split_ifs at hlength with hsuffix hvalue
    obtain rfl := Outcome.ok.inj h
    exact hvalue
  · next name =>
    have hname := hzero name (Except.ok.inj hlength).symm
    unfold Environment.length at h
    dsimp only at h
    intro hn
    cases hconstant : env.constant name with
    | none =>
      rw [hconstant] at h
      cases h
    | some value =>
      rw [hconstant] at h
      rw [hconstant, Outcome.ok.inj h, hn] at hname
      exact hname rfl
  · cases hlength
  · cases hlength

section
variable [Target] {endian : WireEndian} {ty : SynType} {c : FieldCategory} {storage : Category}

theorem stores_of_path (hpath : storage.isPath = true) (hacc : storage.Accepted)
    (hc : c ≠ .path true) : Stores c storage := by
  cases storage with
  | scalarEnum ir =>
    exact ⟨hacc, rfl, rfl, rfl, iff_of_false (by simp [Category.payloadEnum]) hc, fun _ _ => rfl⟩
  | struct ir fields =>
    exact ⟨hacc, rfl, rfl, rfl, iff_of_false (by simp [Category.payloadEnum]) hc, fun _ _ => rfl⟩
  | _ => cases hpath

omit [Target] in
theorem wireType_string {s : StringIr} (hs : c.string? = some s) :
    env.wireType endian ty c = .ok (.string s) := by
  cases c with
  | borrowedStr | borrowedCStr | borrowedU16Str | borrowedU16CStr =>
    rw [← Option.some.inj hs]
    rfl
  | _ => cases hs

omit [Target] in
theorem string?_of_isString (h : c.isString = true) : ∃ s, c.string? = some s := by
  cases c with
  | borrowedStr | borrowedCStr | borrowedU16Str | borrowedU16CStr => exact ⟨_, rfl⟩
  | _ => cases h

omit [Target] in
theorem leaf_of_isString (h : c.isString = true) : c.leaf = c := by
  cases c with
  | borrowedStr | borrowedCStr | borrowedU16Str | borrowedU16CStr => rfl
  | _ => cases h

/-- The storage of an array element. -/
theorem wireType_element (h : CarriesElement ty c) (hknows : env.Knows)
    (hleaf : ∀ s, c.leaf.string? = some s → s.Accepted)
    (hzero : ∀ name ∈ nonzeroAssertionsCategory c, env.constant name ≠ some 0)
    (hw : env.wireType endian ty c = .ok storage) :
    storage.Accepted ∧ storage.isElement = true := by
  induction h generalizing storage with
  | primitive p =>
    obtain rfl := Outcome.ok.inj hw
    exact ⟨trivial, rfl⟩
  | bool =>
    obtain rfl := Outcome.ok.inj hw
    exact ⟨trivial, rfl⟩
  | string hstring =>
    obtain ⟨s, hs⟩ := string?_of_isString hstring
    rw [wireType_string hs] at hw
    obtain rfl := Outcome.ok.inj hw
    rw [leaf_of_isString hstring] at hleaf
    exact ⟨hleaf s hs, rfl⟩
  | path =>
    obtain ⟨hschema, hpath⟩ := wireOf_eq_ok.mp hw
    refine ⟨hknows _ _ hschema, ?_⟩
    cases storage with
    | scalarEnum | struct => rfl
    | _ => cases hpath
  | @array elem len c length hlength helement ih =>
    obtain ⟨element, hwelement, hw⟩ := Outcome.bind_eq_ok.mp hw
    obtain ⟨n, hn, hw⟩ := Outcome.bind_eq_ok.mp hw
    obtain rfl := Outcome.ok.inj hw
    have hinner : element.Accepted ∧ element.isElement = true := by
      refine ih hleaf ?_ hwelement
      intro name hname
      exact hzero name (List.mem_append_right _ hname)
    refine ⟨⟨hinner.1, hinner.2, ?_⟩, rfl⟩
    refine length_ne_zero hlength ?_ hn
    intro name hsymbolic
    refine hzero name (List.mem_append_left _ ?_)
    rw [hsymbolic]
    exact List.mem_singleton_self name

omit [Target] in
theorem wireType_element_only (h : CarriesElement ty c) :
    (env.wireType endian ty c).Only ExpansionError.Foreign := by
  induction h with
  | primitive | bool => trivial
  | string hstring =>
    obtain ⟨s, hs⟩ := string?_of_isString hstring
    rw [wireType_string hs]
    trivial
  | path => exact wireOf_only
  | array hlength helement ih =>
    refine Outcome.Only.bind ih fun element _ => ?_
    exact Outcome.Only.bind length_only fun n _ => trivial

omit [Target] in
theorem wireType_only (h : Carries ty c) :
    (env.wireType endian ty c).Only ExpansionError.Foreign := by
  cases h with
  | element helement => exact wireType_element_only helement
  | fixedBytes hlength => exact Outcome.Only.bind length_only fun n _ => trivial
  | path tagged =>
    cases tagged with
    | true => exact payloadOf_only
    | false => exact wireOf_only
  | optional => exact wireOf_only
  | @optionalArray qself qualifier ident elem len length hlength =>
    have harray : CarriesElement (.array elem len) (.array (.path false) length) :=
      .array hlength .path
    have honly : (env.wireType endian (.array elem len) (.array (.path false) length)).Only
        ExpansionError.Foreign := wireType_element_only harray
    exact honly

/-- The storage of a field's type. -/
theorem wireType_stores (h : Carries ty c) (hknows : env.Knows)
    (hleaf : ∀ s, c.leaf.string? = some s → s.Accepted)
    (hzero : ∀ name ∈ nonzeroAssertionsCategory c, env.constant name ≠ some 0)
    (hw : env.wireType endian ty c = .ok storage) : Stores c storage := by
  cases h with
  | element helement =>
    obtain ⟨hacc, helem⟩ := wireType_element helement hknows hleaf hzero hw
    have hpayload : storage.payloadEnum = none :=
      Category.payloadEnum_eq_none (Or.inr (Or.inl helem))
    have hpath : c ≠ .path true := by
      intro hc
      rw [hc] at helement
      cases helement with
      | string hstring => cases hstring
    have hoptional (d : FieldCategory) : c ≠ .optional d := by
      intro hc
      rw [hc] at helement
      cases helement with
      | string hstring => cases hstring
    refine ⟨hacc, ?_, ?_, ?_, iff_of_false (by simp [hpayload]) hpath, ?_⟩
    · cases storage <;> first | rfl | cases helem
    · cases storage <;> first | rfl | cases helem
    · cases storage <;> first | rfl | cases helem
    · intro d hd
      exact absurd hd (hoptional d)
  | @fixedBytes lifetime mutable elem len length hlength =>
    obtain ⟨n, hn, hw⟩ := Outcome.bind_eq_ok.mp hw
    obtain rfl := Outcome.ok.inj hw
    have hne : n ≠ 0 := by
      refine length_ne_zero hlength ?_ hn
      intro name hsymbolic
      refine hzero name ?_
      rw [hsymbolic]
      exact List.mem_singleton_self name
    exact ⟨hne, rfl, rfl, rfl, by simp [Category.payloadEnum], fun d hd => by cases hd⟩
  | path tagged =>
    cases tagged with
    | true =>
      obtain ⟨hschema, hpayload⟩ := payloadOf_eq_ok.mp hw
      have hacc := hknows _ _ hschema
      cases storage with
      | tagged ir payload =>
        exact ⟨hacc, rfl, rfl, rfl, iff_of_true rfl rfl, fun d hd => by cases hd⟩
      | _ => cases hpayload
    | false =>
      obtain ⟨hschema, hpath⟩ := wireOf_eq_ok.mp hw
      exact stores_of_path hpath (hknows _ _ hschema) (by simp)
  | optional =>
    obtain ⟨hschema, hpath⟩ := wireOf_eq_ok.mp hw
    exact stores_of_path hpath (hknows _ _ hschema) (by simp)
  | @optionalArray qself qualifier ident elem len length hlength =>
    have hcarries : CarriesElement (.array elem len) (.array (.path false) length) :=
      .array hlength .path
    have hw' : env.wireType endian (.array elem len) (.array (.path false) length) = .ok storage :=
      hw
    obtain ⟨hacc, -⟩ := wireType_element hcarries hknows (fun s hs => by cases hs) hzero hw'
    obtain ⟨element, helement, hw'⟩ := Outcome.bind_eq_ok.mp hw'
    obtain ⟨n, -, hw'⟩ := Outcome.bind_eq_ok.mp hw'
    obtain rfl := Outcome.ok.inj hw'
    obtain ⟨-, hpath⟩ := wireOf_eq_ok.mp helement
    exact ⟨hacc, rfl, rfl, rfl, by simp [Category.payloadEnum], fun _ _ => hpath⟩

/-! ### Fields -/

/-- The storage of a field: a tag sibling stores an enum, and the payloads are the fields that
have such a sibling. -/
structure StoresField [Target] (field : DeclaredField) (sibling : Bool) (storage : Category) :
    Prop where
  accepted : storage.Accepted
  isField : storage.isField = true
  optional : storage.isOptional = true → ∃ inner, field.category = .optional inner
  payload : storage.payloadEnum.isSome = true ↔ field.category = .path true
  tag : storage.tagEnum.isSome = true → sibling = true

theorem wireFieldType_stores {field : DeclaredField} {sibling : Bool} (hknows : env.Knows)
    (h : env.wireFieldType field sibling = .ok storage) : StoresField field sibling storage := by
  unfold wireFieldType at h
  split at h
  · cases h
  · next hzero =>
    push Not at hzero
    obtain ⟨base, hbase, h⟩ := Outcome.bind_eq_ok.mp h
    have hstores : Stores field.category base := by
      refine wireType_stores (analyzeField_carries field.analyzed) hknows ?_ hzero hbase
      intro s hs
      exact (analyzeField_declares field.analyzed hs).2
    split at h
    · next hsibling =>
      split at h
      · next ir =>
        obtain rfl := Outcome.ok.inj h
        have hpath : field.category ≠ .path true := by
          intro hc
          cases hstores.payload.mpr hc
        have hpayload : (Category.tagSibling ir).payloadEnum.isSome = true ↔
            field.category = .path true := iff_of_false (by simp [Category.payloadEnum]) hpath
        exact ⟨trivial, rfl, fun h => (by cases h), hpayload, fun _ => hsibling⟩
      · cases h
    · have huntagged : base.tagEnum.isSome = true → sibling = true := by
        intro htag
        rw [hstores.untagged] at htag
        cases htag
      split at h
      · next inner hcategory =>
        split_ifs at h with hinvalid
        obtain ⟨align, -, h⟩ := Outcome.bind_eq_ok.mp h
        obtain rfl := Outcome.ok.inj h
        have hacc : (Category.optional align base).Accepted :=
          ⟨hstores.accepted, hstores.inner inner hcategory, hinvalid⟩
        refine ⟨hacc, rfl, fun _ => ⟨inner, hcategory⟩, ?_, fun h => by cases h⟩
        rw [hcategory]
        exact iff_of_false (by simp [Category.payloadEnum]) (by simp)
      · obtain rfl := Outcome.ok.inj h
        refine ⟨hstores.accepted, hstores.isField, ?_, hstores.payload, huntagged⟩
        intro hoptional
        rw [hstores.plain] at hoptional
        cases hoptional

omit [Target] in
theorem alignmentMarker_eq_ok {value : ℕ} (h : IsAlignment value) :
    ∃ marker, alignmentMarker value = .ok marker :=
  ⟨_, dif_neg ((LitInt.alignment_iff value).mpr h)⟩

omit [Target] in
theorem fieldMarker_only {align : Option ℕ} (h : ∀ value ∈ align, IsAlignment value) :
    (fieldMarker align).Only ExpansionError.Foreign := by
  cases align with
  | none => trivial
  | some value =>
    obtain ⟨marker, hmarker⟩ := alignmentMarker_eq_ok (h value rfl)
    unfold fieldMarker
    dsimp only
    rw [hmarker]
    trivial

omit [Target] in
theorem rootMarker_only {align : Option ℕ} (h : ∀ value ∈ align, IsAlignment value) :
    (rootMarker align).Only ExpansionError.Foreign := by
  cases align with
  | none => trivial
  | some value =>
    obtain ⟨marker, hmarker⟩ := alignmentMarker_eq_ok (h value rfl)
    unfold rootMarker
    dsimp only
    rw [hmarker]
    trivial

omit [Target] in
theorem wireFieldType_only {field : DeclaredField} {sibling : Bool}
    (halign : ∀ value ∈ field.options.align, IsAlignment value) :
    (env.wireFieldType field sibling).Only ExpansionError.Foreign := by
  unfold wireFieldType
  split
  · trivial
  · refine Outcome.Only.bind (wireType_only (analyzeField_carries field.analyzed)) ?_
    intro base _
    split
    · split <;> trivial
    · split
      · split_ifs
        · exact Outcome.Only.bind (fieldMarker_only halign) fun _ _ => trivial
        · trivial
      · trivial

omit [Target] in
theorem wireFieldAlign_only {field : DeclaredField}
    (halign : ∀ value ∈ field.options.align, IsAlignment value) :
    (wireFieldAlign field).Only ExpansionError.Foreign := by
  unfold wireFieldAlign
  split
  · trivial
  · exact fieldMarker_only halign

end

/-! ### Declarations -/

section
variable [Target] {storage : Category}

/-- A record whose links the analysis has found is linked, once the compiler has checked that both
ends of each link have one enum. -/
theorem linked_of_links {ir : StructIr} {fields : Fin ir.arity → DeclaredField}
    {categories : Fin ir.arity → Category} (hlinks : linkExternalTags fields = .ok ir.tagField)
    (hstores : ∀ i, StoresField (fields i) (decide (∃ j, ir.tagField j = some i)) (categories i))
    (htag : ∀ i t, ir.tagField i = some t →
      (categories t).tagEnum = (categories i).payloadEnum) : ir.Linked categories := by
  obtain ⟨hnames, hlinked, hsound⟩ := linkExternalTags_eq_ok.mp hlinks
  refine ⟨?_, ?_, ?_, ?_⟩
  · intro i t ht
    have hpayload : (fields i).category = .path true := ((hnames i t).mp ht).1
    exact ⟨(hstores i).payload.mpr hpayload, htag i t ht⟩
  · intro i hi
    obtain ⟨t, ht⟩ := hlinked i ((hstores i).payload.mp hi)
    rw [(hnames i t).mpr ht]
    rfl
  · intro t ht
    exact of_decide_eq_true ((hstores t).tag ht)
  · intro i j t hi hj
    exact (hsound j t ((hnames j t).mp hj)).2.2 i ((hnames i t).mp hi)

theorem struct_size_ne_zero {ir : StructIr} {categories : Fin ir.arity → Category}
    (hacc : ∀ i, (categories i).Accepted) (hne : ir.arity ≠ 0) :
    (Category.struct ir categories).wire.size ≠ 0 := by
  have first : Fin ir.arity := ⟨0, Nat.pos_of_ne_zero hne⟩
  have hpos : 0 < (categories first).wire.size := wire_size_pos _ (hacc first)
  have hbound := (fieldPlace ir categories first).bound
  omega

variable {ident : String} {align : Option ℕ} {fields : List DeclaredField}
variable {links : Fin fields.length → Option (Fin fields.length)}

theorem emitStruct_accepted (hknows : env.Knows)
    (hsound : (Analyzed.struct ident align fields links).Sound)
    (h : env.emitStruct ident align fields links = .ok storage) :
    storage.Accepted ∧ storage.isPath = true := by
  obtain ⟨hne, hlinks, -, -⟩ := hsound
  obtain ⟨categories, hcategories, h⟩ := Outcome.bind_eq_ok.mp h
  obtain ⟨aligns, haligns, h⟩ := Outcome.bind_eq_ok.mp h
  obtain ⟨root, -, h⟩ := Outcome.bind_eq_ok.mp h
  dsimp only at h
  split_ifs at h with htag hsize
  obtain rfl := Outcome.ok.inj h
  have hstores (i : Fin fields.length) :
      StoresField (fields.get i) (decide (∃ j, links j = some i)) (categories i) :=
    wireFieldType_stores hknows (each_eq_ok.mp hcategories i)
  push Not at htag
  refine ⟨⟨?_, linked_of_links hlinks hstores htag, hsize⟩, rfl⟩
  intro i
  refine ⟨(hstores i).accepted, (hstores i).isField, ?_⟩
  intro hoptional
  obtain ⟨inner, hcategory⟩ := (hstores i).optional hoptional
  have halign := each_eq_ok.mp haligns i
  unfold wireFieldAlign at halign
  rw [hcategory] at halign
  exact (Outcome.ok.inj halign).symm

/-- The size of a record is never zero, and its alignments have markers. -/
theorem emitStruct_only (hknows : env.Knows)
    (hsound : (Analyzed.struct ident align fields links).Sound) :
    (env.emitStruct ident align fields links).Only ExpansionError.Foreign := by
  obtain ⟨hne, -, halign, hfields⟩ := hsound
  unfold emitStruct
  refine Outcome.Only.bind (Outcome.Only.each fun i => ?_) fun categories hcategories => ?_
  · exact wireFieldType_only (hfields _ (List.get_mem fields i))
  refine Outcome.Only.bind (Outcome.Only.each fun i => ?_) fun aligns _ => ?_
  · exact wireFieldAlign_only (hfields _ (List.get_mem fields i))
  refine Outcome.Only.bind (rootMarker_only halign) fun root _ => ?_
  dsimp only
  split_ifs with htag hsize
  · trivial
  · have hacc (i : Fin fields.length) : (categories i).Accepted :=
      (wireFieldType_stores hknows (each_eq_ok.mp hcategories i)).accepted
    have hlength : fields.length ≠ 0 := by
      intro hzero
      exact hne (List.length_eq_zero_iff.mp hzero)
    exact struct_size_ne_zero hacc hlength hsize
  · trivial

end

section
variable {ident : String} {variants : List TaggedVariant}

theorem tagTypeOf_only {owner : TagPath} : (env.tagTypeOf owner).Only ExpansionError.Foreign := by
  unfold tagTypeOf
  split <;> trivial

theorem tagValue_only {tagType : EnumIr} {tag : TagPath} :
    (env.tagValue tagType tag).Only ExpansionError.Foreign := by
  unfold tagValue
  split
  · split_ifs <;> trivial
  · trivial

theorem payloadType_only {v : TaggedVariant} :
    (env.payloadType v).Only ExpansionError.Foreign := by
  unfold payloadType
  split
  · trivial
  · exact wireOf_only

theorem emitTaggedEnum_only (hsound : (Analyzed.taggedEnum ident variants).Sound) :
    (env.emitTaggedEnum ident variants).Only ExpansionError.Foreign := by
  obtain ⟨hne, -, -⟩ := hsound
  unfold emitTaggedEnum
  cases variants with
  | nil => exact absurd rfl hne
  | cons first rest =>
    refine Outcome.Only.bind trivial fun first' _ => ?_
    refine Outcome.Only.bind tagTypeOf_only fun tagType _ => ?_
    refine Outcome.Only.bind (Outcome.Only.each fun k => tagValue_only) fun tags _ => ?_
    exact Outcome.Only.bind (Outcome.Only.each fun k => payloadType_only) fun payload _ => trivial

theorem tag_text_injective (hnodup : (variants.map fun v => v.tag.text).Nodup)
    {i j : Fin variants.length} (h : (variants.get i).tag.text = (variants.get j).tag.text) :
    i = j := by
  have hlength : (variants.map fun v => v.tag.text).length = variants.length := List.length_map _
  have hinjective := List.nodup_iff_injective_get.mp hnodup
  have hkeys : (variants.map fun v => v.tag.text).get (i.cast hlength.symm) =
      (variants.map fun v => v.tag.text).get (j.cast hlength.symm) := by
    simpa using h
  exact Fin.cast_injective _ (hinjective hkeys)

theorem emitTaggedEnum_accepted [Target] {storage : Category} (hknows : env.Knows)
    (hsound : (Analyzed.taggedEnum ident variants).Sound)
    (h : env.emitTaggedEnum ident variants = .ok storage) :
    storage.Accepted ∧ storage.payloadEnum.isSome = true := by
  obtain ⟨hne, hnodup, -⟩ := hsound
  obtain ⟨first, -, h⟩ := Outcome.bind_eq_ok.mp h
  obtain ⟨tagType, -, h⟩ := Outcome.bind_eq_ok.mp h
  obtain ⟨tags, -, h⟩ := Outcome.bind_eq_ok.mp h
  obtain ⟨payload, hpayload, h⟩ := Outcome.bind_eq_ok.mp h
  obtain rfl := Outcome.ok.inj h
  refine ⟨⟨?_, ?_, ?_⟩, rfl⟩
  · intro k
    have hk := each_eq_ok.mp hpayload k
    unfold payloadType at hk
    split at hk
    · rw [← Outcome.ok.inj hk]
      exact ⟨trivial, rfl⟩
    · obtain ⟨hschema, hpath⟩ := wireOf_eq_ok.mp hk
      exact ⟨hknows _ _ hschema, Category.isPayload_of_isPath hpath⟩
  · intro hzero
    exact hne (List.length_eq_zero_iff.mp hzero)
  · intro i j hij
    exact tag_text_injective hnodup hij

end

section
variable [Target] {a : Analyzed} {storage : Category}

/-- A schema that is accepted is a record, a scalar enum or a tagged payload. -/
def IsSchema (c : Category) : Prop :=
  c.Accepted ∧ (c.isPath = true ∨ c.payloadEnum.isSome = true)

theorem emit_accepted (hknows : env.Knows) (hsound : a.Sound) (h : env.emit a = .ok storage) :
    IsSchema storage := by
  cases a with
  | struct ident align fields links =>
    obtain ⟨hacc, hpath⟩ := emitStruct_accepted hknows hsound h
    exact ⟨hacc, Or.inl hpath⟩
  | scalarEnum ident ir variants =>
    obtain rfl := Outcome.ok.inj h
    exact ⟨trivial, Or.inl rfl⟩
  | taggedEnum ident variants =>
    obtain ⟨hacc, hpayload⟩ := emitTaggedEnum_accepted hknows hsound h
    exact ⟨hacc, Or.inr hpayload⟩

theorem emit_only (hknows : env.Knows) (hsound : a.Sound) :
    (env.emit a).Only ExpansionError.Foreign := by
  cases a with
  | struct ident align fields links => exact emitStruct_only hknows hsound
  | scalarEnum ident ir variants => trivial
  | taggedEnum ident variants => exact emitTaggedEnum_only hsound

end

end Environment

end ZeroSchema
