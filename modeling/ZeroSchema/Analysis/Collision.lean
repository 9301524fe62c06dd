import ZeroSchema.Analysis.Shape
import ZeroSchema.Library.Affix

/-! Collisions of generated names: the check looks at methods only, and the other names of an
accepted declaration are distinct exactly when its fields or variants are separated. -/
namespace ZeroSchema
open Affix

/-! ### Two fields -/

namespace FieldIr
variable [Casing]

/-- A field whose Pascal name takes a name of the other field. Its own adapter or its child error
has the Pascal name of the other one with a word of an adapter or of a child error; or both have
the same Pascal name and are arrays, or both are optional. -/
def Clash (f g : FieldIr) : Prop :=
  (f.category.shape.isPlain = true ∧
    ∃ w ∈ g.category.shape.words, f.pascalName = g.pascalName ++ w) ∨
  (f.category.shape.isChild = true ∧
    ∃ w ∈ g.category.shape.childWords, f.pascalName = g.pascalName ++ w) ∨
  f.pascalName = g.pascalName ∧
    (f.category.shape.isArrayed = true ∧ g.category.shape.isArrayed = true ∨
      f.category.shape.isOptional = true ∧ g.category.shape.isOptional = true)

variable {f g : FieldIr}

theorem clash_of_item {x y u : String} (hx : x ∈ f.category.shape.itemEndings)
    (hy : y ∈ g.category.shape.itemEndings) (hu : y = u ++ x)
    (hname : f.pascalName = g.pascalName ++ u) : f.Clash g := by
  have htable := Shape.itemEndings_suffix _ (Shape.mem_all _) _ (Shape.mem_all _) x hx y hy
    (suffix_of_append hu)
  rcases htable with ⟨hplain, w, hw, hwx⟩ | ⟨hxy, hkinds⟩
  · have hwu : w = u := stem_unique hu hwx
    exact Or.inl ⟨hplain, w, hw, by rw [hwu, hname]⟩
  · have hempty : u = "" := stem_empty hu hxy
    exact Or.inr (Or.inr ⟨by rw [hname, hempty, String.append_empty], hkinds⟩)

theorem clash_of_variant {x y u : String} (hx : x ∈ f.category.shape.variantEndings)
    (hy : y ∈ g.category.shape.variantEndings) (hu : y = u ++ x)
    (hname : f.pascalName = g.pascalName ++ u) : f.Clash g := by
  have htable := Shape.variantEndings_suffix _ (Shape.mem_all _) _ (Shape.mem_all _) x hx y hy
    (suffix_of_append hu)
  rcases htable with ⟨hplain, w, hw, hwx⟩ | ⟨hchild, w, hw, hwx⟩ | ⟨hxy, hkinds⟩
  · have hwu : w = u := stem_unique hu hwx
    exact Or.inl ⟨hplain, w, hw, by rw [hwu, hname]⟩
  · have hwu : w = u := stem_unique hu hwx
    exact Or.inr (Or.inl ⟨hchild, w, hw, by rw [hwu, hname]⟩)
  · have hempty : u = "" := stem_empty hu hxy
    exact Or.inr (Or.inr ⟨by rw [hname, hempty, String.append_empty], Or.inl hkinds⟩)

/-- The names of a field. -/
def items (field : FieldIr) : List String := field.adapters ++ field.errorTypes

theorem disjoint_items (hfg : ¬f.Clash g) (hgf : ¬g.Clash f) : f.items.Disjoint g.items := by
  unfold items
  rw [items_eq, items_eq]
  intro name hf hg
  obtain ⟨x, hx, rfl⟩ := List.mem_map.mp hf
  obtain ⟨y, hy, heq⟩ := List.mem_map.mp hg
  rcases append_eq_append heq.symm with ⟨u, hu, hname⟩ | ⟨u, hu, hname⟩
  · exact hfg (clash_of_item hx hy hu hname)
  · exact hgf (clash_of_item hy hx hu hname)

theorem disjoint_variants (hfg : ¬f.Clash g) (hgf : ¬g.Clash f) :
    f.errorVariants.Disjoint g.errorVariants := by
  rw [errorVariants_eq, errorVariants_eq]
  intro name hf hg
  obtain ⟨x, hx, rfl⟩ := List.mem_map.mp hf
  obtain ⟨y, hy, heq⟩ := List.mem_map.mp hg
  rcases append_eq_append heq.symm with ⟨u, hu, hname⟩ | ⟨u, hu, hname⟩
  · exact hfg (clash_of_variant hx hy hu hname)
  · exact hgf (clash_of_variant hy hx hu hname)

/-- A clash is a name that both define. -/
theorem Clash.not_disjoint (h : f.Clash g) :
    ¬(f.items.Disjoint g.items ∧ f.errorVariants.Disjoint g.errorVariants) := by
  rintro ⟨hitems, hvariants⟩
  unfold items at hitems
  rw [items_eq, items_eq] at hitems
  rw [errorVariants_eq, errorVariants_eq] at hvariants
  have shared {x y : String} (hx : x ∈ f.category.shape.itemEndings)
      (hy : y ∈ g.category.shape.itemEndings) (heq : f.pascalName ++ x = g.pascalName ++ y) :
      False :=
    hitems (List.mem_map.mpr ⟨x, hx, rfl⟩) (List.mem_map.mpr ⟨y, hy, heq.symm⟩)
  rcases h with ⟨hplain, w, hw, hname⟩ | ⟨hchild, w, hw, hname⟩ | ⟨hname, hkinds⟩
  · apply shared (Shape.adapter_mem hplain) (Shape.word_mem hw)
    rw [hname, String.append_assoc]
  · apply hvariants (List.mem_map.mpr ⟨"Child", Shape.child_mem hchild, rfl⟩)
    refine List.mem_map.mpr ⟨w ++ "Child", Shape.childWord_mem hw, ?_⟩
    rw [hname, String.append_assoc]
  · rcases hkinds with ⟨hf, hg⟩ | ⟨hf, hg⟩
    · exact shared (Shape.arrayAdapter_mem hf) (Shape.arrayAdapter_mem hg) (by rw [hname])
    · exact shared (Shape.optionAdapter_mem hf) (Shape.optionAdapter_mem hg) (by rw [hname])

end FieldIr

/-! ### The check -/

theorem reserve_all (l seen : List String) :
    (∃ names, l.foldlM reserve seen = .ok names) ↔ l.Nodup ∧ ∀ name ∈ l, name ∉ seen := by
  induction l generalizing seen with
  | nil => exact iff_of_true ⟨seen, rfl⟩ ⟨List.nodup_nil, by simp⟩
  | cons name l ih =>
    rw [List.foldlM_cons]
    by_cases h : name ∈ seen
    · have hreserve : reserve seen name =
          .error ("generated zero-schema name collision for `" ++ name ++ "`") := if_pos h
      rw [hreserve]
      refine iff_of_false ?_ fun hall => hall.2 name List.mem_cons_self h
      rintro ⟨names, hnames⟩
      cases hnames
    · have hreserve : reserve seen name = .ok (name :: seen) := if_neg h
      rw [hreserve]
      change (∃ names, l.foldlM reserve (name :: seen) = .ok names) ↔ _
      rw [ih, List.nodup_cons, List.forall_mem_cons]
      simp only [List.mem_cons, not_or]
      constructor
      · intro hl
        exact ⟨⟨fun hmem => (hl.2 name hmem).1 rfl, hl.1⟩, h, fun a ha => (hl.2 a ha).2⟩
      · intro hl
        refine ⟨hl.1.2, fun a ha => ⟨?_, hl.2.2 a ha⟩⟩
        rintro rfl
        exact hl.1.1 ha

namespace SchemaIr
variable [Casing]

/-- The check accepts exactly the declarations with distinct reserved names. -/
theorem validateGeneratedNames_eq_ok (ir : SchemaIr) :
    ir.validateGeneratedNames = .ok () ↔ ir.reserved.Nodup := by
  have hall := reserve_all ir.reserved []
  simp only [List.not_mem_nil, not_false_eq_true, implies_true, and_true] at hall
  rw [← hall, validateGeneratedNames]
  cases ir.reserved.foldlM reserve [] with
  | error message => simp [bind, Except.bind]
  | ok names => simp [bind, Except.bind]

end SchemaIr

/-! ### Records -/

namespace SchemaIr

def typeEndings : List String :=
  ["Wire", "Ref", "Mut", "Patch", "AccessError", "MutationError", "Owner", "Support"]

def recordEndings : List String :=
  ["__MutationArrayError", "__ZERO_SCHEMA_ERROR_BOUNDARY", "__zero_schema_same_type",
    "__zero_schema_assert_tag_type", "__zero_schema_assert_all_tag_types",
    "__zero_schema_string_kind"]

/-- The fixed names of a support module, as the declaration's name or nothing and an ending. -/
def fixedParts (logicalName : String) : List (String × String) :=
  typeEndings.map (logicalName, ·) ++
    ("__ZeroSchemaInputAccessToken" :: recordEndings).map ("", ·)

def fixedEndings : List String := typeEndings ++ "__ZeroSchemaInputAccessToken" :: recordEndings

theorem fixedEndings_apart : fixedEndings.Pairwise Apart := by decide +kernel

theorem itemEndings_apart : ∀ s ∈ Shape.all, ∀ x ∈ s.itemEndings, ∀ y ∈ fixedEndings,
    Apart x y := by
  decide +kernel

theorem fixed_eq (logicalName : String) : supportTypes logicalName ++ recordEndings =
    (fixedParts logicalName).map fun name => name.1 ++ name.2 := rfl

theorem fixed_nodup (logicalName : String) :
    (supportTypes logicalName ++ recordEndings).Nodup := by
  rw [fixed_eq]
  exact nodup_of_apart fixedEndings_apart

theorem recordItems_sublist (fields : List FieldIr) :
    (recordItems fields).Sublist recordEndings := by
  unfold recordItems
  split_ifs <;> decide

theorem mem_fixed {logicalName name : String}
    (h : name ∈ supportTypes logicalName ++ recordEndings) :
    ∃ stem, ∃ y ∈ fixedEndings, name = stem ++ y := by
  rw [fixed_eq] at h
  obtain ⟨part, hpart, rfl⟩ := List.mem_map.mp h
  have hending : part.2 ∈ (fixedParts logicalName).map Prod.snd := List.mem_map_of_mem hpart
  exact ⟨part.1, part.2, hending, rfl⟩

variable [Casing] {logicalName : String} {fields : List FieldIr}

/-- No item of a field has a fixed name. -/
theorem disjoint_fixed (field : FieldIr) {name : String}
    (h : name ∈ supportTypes logicalName ++ recordItems fields) : name ∉ field.items := by
  intro hitem
  have hfixed : name ∈ supportTypes logicalName ++ recordEndings :=
    (List.Sublist.append_left (recordItems_sublist fields) _).subset h
  obtain ⟨stem, y, hy, hname⟩ := mem_fixed hfixed
  rw [FieldIr.items, FieldIr.items_eq] at hitem
  obtain ⟨x, hx, hitem⟩ := List.mem_map.mp hitem
  have hapart := itemEndings_apart _ (Shape.mem_all _) x hx y hy
  exact hapart.append_ne field.pascalName stem (hitem.trans hname)

theorem items_nodup (field : FieldIr) : field.items.Nodup := by
  have hendings : ∀ s ∈ Shape.all, s.itemEndings.Nodup := by decide +kernel
  rw [FieldIr.items, FieldIr.items_eq]
  exact nodup_map_append _ (hendings _ (Shape.mem_all _))

theorem errorVariants_nodup (field : FieldIr) : field.errorVariants.Nodup := by
  have hendings : ∀ s ∈ Shape.all, s.variantEndings.Nodup := by decide
  rw [FieldIr.errorVariants_eq]
  exact nodup_map_append _ (hendings _ (Shape.mem_all _))

theorem module_nodup_iff : (structNames logicalName fields .module).Nodup ↔
    fields.Pairwise fun f g => f.items.Disjoint g.items := by
  have hfixed : (supportTypes logicalName ++ recordItems fields).Nodup :=
    (fixed_nodup logicalName).sublist (List.Sublist.append_left (recordItems_sublist fields) _)
  have hflat : (fields.flatMap FieldIr.items).Nodup ↔
      fields.Pairwise fun f g => f.items.Disjoint g.items := by
    rw [List.nodup_flatMap]
    exact and_iff_right fun field _ => items_nodup field
  change (_ ++ fields.flatMap FieldIr.items).Nodup ↔ _
  rw [List.nodup_append, hflat]
  constructor
  · intro h
    exact h.2.1
  · intro h
    refine ⟨hfixed, h, fun name hname item hitem heq => ?_⟩
    obtain ⟨field, -, hmem⟩ := List.mem_flatMap.mp hitem
    exact disjoint_fixed field hname (heq ▸ hmem)

theorem accessError_nodup_iff : (structNames logicalName fields .accessError).Nodup ↔
    fields.Pairwise fun f g => f.errorVariants.Disjoint g.errorVariants := by
  have hlayout : "Layout" ∉ fields.flatMap FieldIr.errorVariants := by
    intro hmem
    have hapart : ∀ s ∈ Shape.all, ∀ x ∈ s.variantEndings, Apart x "Layout" := by decide +kernel
    obtain ⟨field, -, hfield⟩ := List.mem_flatMap.mp hmem
    rw [FieldIr.errorVariants_eq] at hfield
    obtain ⟨x, hx, hname⟩ := List.mem_map.mp hfield
    have hne := (hapart _ (Shape.mem_all _) x hx).append_ne field.pascalName ""
    exact hne (hname.trans String.empty_append.symm)
  change ("Layout" :: fields.flatMap FieldIr.errorVariants).Nodup ↔ _
  rw [List.nodup_cons, and_iff_right hlayout, List.nodup_flatMap]
  exact and_iff_right fun field _ => errorVariants_nodup field

theorem offset_nodup_iff : (structNames logicalName fields .offset).Nodup ↔
    fields.Pairwise fun f g => Casing.uppercase f.logicalName ≠ Casing.uppercase g.logicalName := by
  change (fields.map FieldIr.fieldOffsetName).Nodup ↔ _
  rw [List.Nodup, List.pairwise_map]
  exact List.Pairwise.iff fun f g => not_congr (String.append_right_inj _)

theorem mutationError_nodup : (structNames logicalName fields .mutationError).Nodup := by
  change (["Access", "Layout", "Field", "Array"] ++ _).Nodup
  rw [List.nodup_append]
  refine ⟨by decide, ?_, ?_⟩
  · have hinj : Function.Injective (fun depth : ℕ => "ArrayPath" ++ toString depth) := by
      intro m n h
      exact toString_injective ((String.append_right_inj "ArrayPath").mp h)
    exact (List.nodup_dedup _).map hinj
  · intro name hname other hother heq
    obtain ⟨depth, -, rfl⟩ := List.mem_map.mp hother
    have hlong : ∀ name ∈ ["Access", "Layout", "Field", "Array"], name.length < 9 := by decide
    have hlength : name.length = 9 + (toString depth).length := by
      rw [heq, String.length_append]
      rfl
    have hshort := hlong name hname
    omega

/-- The check does what is needed for the methods and the field names. -/
theorem struct_methods_nodup (logicalName : String) {ident : String}
    (h : (struct ident fields).reserved.Nodup) :
    (fields.map (·.logicalName)).Nodup ∧ (structNames logicalName fields .reference).Nodup ∧
      (structNames logicalName fields .mutable).Nodup := by
  have hperm := flatMap_pair_perm fields (·.logicalName) (·.logicalName ++ "_mut")
    fun field => isTagSibling fields field.declarationIndex
  have hreserved := ((hperm.append_left _).nodup_iff).mp h
  have hgetters := hreserved.sublist (List.Sublist.append_left (List.sublist_append_left _ _) _)
  refine ⟨(List.nodup_append.mp hgetters).2.1, ?_, ?_⟩
  · exact nodup_around hgetters [] ["copy_into"] (by simp) (by decide)
  · exact nodup_around hreserved [] ["clear", "copy_into", "copy_from"] (by simp) (by decide)

end SchemaIr

/-! ### Tagged payloads -/

namespace SchemaIr
variable {logicalName : String} {variants : List VariantIr}

/-- The wire type and the layout of a unit variant. -/
def unitNames (index : ℕ) : List String :=
  ["Variant" ++ toString index ++ "Wire", "Variant" ++ toString index ++ "Layout"]

theorem unitNames_disjoint {m n : ℕ} (h : m ≠ n) : (unitNames m).Disjoint (unitNames n) := by
  have hapart : Apart "Wire" "Layout" := by decide
  intro name hm hn
  simp only [unitNames, List.mem_cons, List.not_mem_nil, or_false] at hm hn
  rcases hm with rfl | rfl <;> rcases hn with hn | hn
  · exact h (numbered_injective "Variant" "Wire" hn)
  · exact hapart.append_ne _ _ hn
  · exact hapart.append_ne _ _ hn.symm
  · exact h (numbered_injective "Variant" "Layout" hn)

theorem units_nodup (variants : List VariantIr) :
    ((variants.zipIdx.filter (·.1.isUnit)).flatMap fun place => unitNames place.2).Nodup := by
  have hindices : (variants.zipIdx.map Prod.snd).Nodup := by
    rw [List.zipIdx_map_snd]
    exact List.nodup_range'
  have hpairs : (variants.zipIdx.filter (·.1.isUnit)).Pairwise fun p q => p.2 ≠ q.2 :=
    (List.pairwise_map.mp hindices).sublist List.filter_sublist
  have hunit (index : ℕ) : (unitNames index).Nodup := by
    have hapart : Apart "Wire" "Layout" := by decide
    rw [unitNames, List.nodup_cons, List.mem_singleton]
    exact ⟨hapart.append_ne _ _, List.nodup_singleton _⟩
  rw [List.nodup_flatMap]
  exact ⟨fun place _ => hunit place.2, hpairs.imp unitNames_disjoint⟩

/-- A fixed name is that of a unit variant only when the declaration is called like the number of
the variant. -/
theorem eq_of_mem_unitNames {index : ℕ} {name : String} (hunit : name ∈ unitNames index)
    (hfixed : name ∈ supportTypes logicalName) : logicalName = "Variant" ++ toString index := by
  have hwire : ∀ y ∈ typeEndings, y = "Wire" ∨ Apart "Wire" y := by decide
  have hlayout : ∀ y ∈ "__ZeroSchemaInputAccessToken" :: typeEndings, Apart "Layout" y := by
    decide
  have hsplit : supportTypes logicalName =
      typeEndings.map (logicalName ++ ·) ++ ["__ZeroSchemaInputAccessToken"] := rfl
  rw [hsplit, List.mem_append, List.mem_singleton] at hfixed
  simp only [unitNames, List.mem_cons, List.not_mem_nil, or_false] at hunit
  rcases hfixed with hfixed | htoken
  · obtain ⟨y, hy, heq⟩ := List.mem_map.mp hfixed
    rcases hunit with hunit | hunit
    · rcases hwire y hy with rfl | hapart
      · exact (String.append_left_inj "Wire").mp (heq.trans hunit)
      · exact absurd (hunit.symm.trans heq.symm) (hapart.append_ne _ _)
    · have hapart := hlayout y (List.mem_cons_of_mem _ hy)
      exact absurd (hunit.symm.trans heq.symm) (hapart.append_ne _ _)
  · have htoken' : name = "" ++ "__ZeroSchemaInputAccessToken" := htoken
    rcases hunit with hunit | hunit
    · have hapart : Apart "Wire" "__ZeroSchemaInputAccessToken" := by decide
      exact absurd (hunit.symm.trans htoken') (hapart.append_ne _ _)
    · exact absurd (hunit.symm.trans htoken')
        ((hlayout _ List.mem_cons_self).append_ne _ _)

variable [Casing]

theorem tagged_methods_nodup (logicalName : String) {ident : String}
    (h : (taggedEnum ident variants).reserved.Nodup) :
    (variants.map (·.logicalName)).Nodup ∧ (taggedEnumNames logicalName variants .reference).Nodup ∧
      (taggedEnumNames logicalName variants .mutable).Nodup := by
  have hperm := flatMap_pair_perm variants (fun variant => Casing.snakeCase variant.logicalName)
    (fun variant => Casing.snakeCase variant.logicalName ++ "_mut") fun _ => false
  simp only [Bool.false_eq_true, if_false, Bool.not_false, List.filter_true] at hperm
  have hreserved := ((hperm.append_left _).nodup_iff).mp h
  have hshared := hreserved.sublist (List.Sublist.append_left (List.sublist_append_left _ _) _)
  have hexclusive :=
    hreserved.sublist (List.Sublist.append_left (List.sublist_append_right _ _) _)
  refine ⟨?_, ?_, ?_⟩
  · have hmethods : ((variants.map (·.logicalName)).map Casing.snakeCase).Nodup := by
      rw [List.map_map]
      exact (List.nodup_append.mp hshared).2.1
    exact hmethods.of_map _
  · exact nodup_around hshared ["tag"] ["copy_into"] (by simp) (by decide)
  · exact nodup_around hexclusive ["tag"] ["copy_into", "copy_from"] (by simp) (by decide)

theorem tagged_module_nodup_iff : (taggedEnumNames logicalName variants .module).Nodup ↔
    ∀ place ∈ variants.zipIdx, place.1.isUnit = true →
      logicalName ≠ "Variant" ++ toString place.2 := by
  have hfixed : (supportTypes logicalName).Nodup :=
    (fixed_nodup logicalName).sublist (List.sublist_append_left _ _)
  change (supportTypes logicalName ++
    (variants.zipIdx.filter (·.1.isUnit)).flatMap fun place => unitNames place.2).Nodup ↔ _
  rw [List.nodup_append]
  constructor
  · rintro ⟨-, -, hne⟩ place hplace hunit heq
    have hwire : logicalName ++ "Wire" ∈ supportTypes logicalName := List.mem_cons_self
    have hunits : logicalName ++ "Wire" ∈
        (variants.zipIdx.filter (·.1.isUnit)).flatMap fun place => unitNames place.2 := by
      rw [List.mem_flatMap]
      refine ⟨place, List.mem_filter.mpr ⟨hplace, hunit⟩, ?_⟩
      rw [heq]
      exact List.mem_cons_self
    exact hne _ hwire _ hunits rfl
  · intro hall
    refine ⟨hfixed, units_nodup variants, fun name hname other hother heq => ?_⟩
    obtain ⟨place, hplace, hmem⟩ := List.mem_flatMap.mp hother
    obtain ⟨hplace, hunit⟩ := List.mem_filter.mp hplace
    exact hall place hplace hunit (eq_of_mem_unitNames (heq ▸ hmem) hname)

theorem tagged_accessError_nodup_iff (h : (variants.map (·.logicalName)).Nodup) :
    (taggedEnumNames logicalName variants .accessError).Nodup ↔
      ∀ variant ∈ variants, variant.isUnit = false →
        variant.logicalName ≠ "Layout" ∧ variant.logicalName ≠ "UnknownUnionTag" := by
  have hnewtypes : ((variants.filter (!·.isUnit)).map (·.logicalName)).Nodup :=
    h.sublist (List.filter_sublist.map _)
  change (["Layout", "UnknownUnionTag"] ++ _).Nodup ↔ _
  rw [List.nodup_append]
  constructor
  · rintro ⟨-, -, hne⟩ variant hvariant hunit
    have hmem : variant.logicalName ∈ (variants.filter (!·.isUnit)).map (·.logicalName) :=
      List.mem_map_of_mem (List.mem_filter.mpr ⟨hvariant, by simp [hunit]⟩)
    exact ⟨(hne "Layout" (by simp) _ hmem).symm, (hne "UnknownUnionTag" (by simp) _ hmem).symm⟩
  · intro hall
    refine ⟨by decide, hnewtypes, fun name hname other hother heq => ?_⟩
    obtain ⟨variant, hvariant, rfl⟩ := List.mem_map.mp hother
    obtain ⟨hmem, hunit⟩ := List.mem_filter.mp hvariant
    have hnot := hall variant hmem (by simpa using hunit)
    simp only [List.mem_cons, List.not_mem_nil, or_false] at hname
    rcases hname with rfl | rfl
    · exact hnot.1 heq.symm
    · exact hnot.2 heq.symm

end SchemaIr

/-! ### Every declaration -/

namespace SchemaIr
variable [Casing]

/-- What keeps the names of an accepted declaration apart: no two fields have one name in upper
case or clash, no payload variant is called like a variant that every access error has, and no
unit variant has the number that the declaration is called by. -/
def Separated : SchemaIr → Prop
  | struct _ fields => fields.Pairwise fun f g =>
      Casing.uppercase f.logicalName ≠ Casing.uppercase g.logicalName ∧ ¬f.Clash g ∧ ¬g.Clash f
  | scalarEnum _ _ => True
  | taggedEnum ident variants =>
    (∀ variant ∈ variants, variant.isUnit = false →
      variant.logicalName ≠ "Layout" ∧ variant.logicalName ≠ "UnknownUnionTag") ∧
    ∀ place ∈ variants.zipIdx, place.1.isUnit = true →
      normalizedIdent ident ≠ "Variant" ++ toString place.2

theorem struct_nodup_iff {ident : String} {fields : List FieldIr}
    (h : (struct ident fields).reserved.Nodup) :
    (∀ scope, ((struct ident fields).generated scope).Nodup) ↔ (struct ident fields).Separated := by
  obtain ⟨hnames, hreference, hmutable⟩ :=
    struct_methods_nodup (normalizedIdent ident) h
  constructor
  · intro hall
    have hoffset : (structNames (normalizedIdent ident) fields .offset).Nodup := hall .offset
    have hmodule : (structNames (normalizedIdent ident) fields .module).Nodup := hall .module
    have herror : (structNames (normalizedIdent ident) fields .accessError).Nodup :=
      hall .accessError
    rw [offset_nodup_iff] at hoffset
    rw [module_nodup_iff] at hmodule
    rw [accessError_nodup_iff] at herror
    refine (hoffset.and (hmodule.and herror)).imp ?_
    intro f g hfg
    refine ⟨hfg.1, fun hclash => hclash.not_disjoint hfg.2, fun hclash => ?_⟩
    exact hclash.not_disjoint ⟨hfg.2.1.symm, hfg.2.2.symm⟩
  · intro hsep scope
    change (structNames (normalizedIdent ident) fields scope).Nodup
    cases scope with
    | module =>
      exact module_nodup_iff.mpr (hsep.imp fun h => FieldIr.disjoint_items h.2.1 h.2.2)
    | wire | patch => exact hnames
    | offset => exact offset_nodup_iff.mpr (hsep.imp fun h => h.1)
    | reference => exact hreference
    | mutable => exact hmutable
    | accessError =>
      exact accessError_nodup_iff.mpr (hsep.imp fun h => FieldIr.disjoint_variants h.2.1 h.2.2)
    | mutationError => exact mutationError_nodup

omit [Casing] in
theorem scalarEnum_nodup (logicalName : String) (scope : Scope) :
    (scalarEnumNames logicalName scope).Nodup := by
  cases scope with
  | module => exact (fixed_nodup logicalName).sublist (List.sublist_append_left _ _)
  | wire | offset => exact List.nodup_nil
  | reference => exact (by decide : ["get", "copy_into"].Nodup)
  | mutable => exact (by decide : ["get", "set", "copy_into", "copy_from"].Nodup)
  | patch => exact List.nodup_singleton _
  | accessError => exact (by decide : ["Layout", "UnknownEnumValue"].Nodup)
  | mutationError => exact (by decide : ["Access", "Layout"].Nodup)

theorem taggedEnum_nodup_iff {ident : String} {variants : List VariantIr}
    (h : (taggedEnum ident variants).reserved.Nodup) :
    (∀ scope, ((taggedEnum ident variants).generated scope).Nodup) ↔
      (taggedEnum ident variants).Separated := by
  obtain ⟨hnames, hreference, hmutable⟩ :=
    tagged_methods_nodup (normalizedIdent ident) h
  constructor
  · intro hall
    have herror : (taggedEnumNames (normalizedIdent ident) variants .accessError).Nodup :=
      hall .accessError
    have hmodule : (taggedEnumNames (normalizedIdent ident) variants .module).Nodup := hall .module
    rw [tagged_accessError_nodup_iff hnames] at herror
    rw [tagged_module_nodup_iff] at hmodule
    exact ⟨herror, hmodule⟩
  · intro hsep scope
    change (taggedEnumNames (normalizedIdent ident) variants scope).Nodup
    cases scope with
    | module => exact tagged_module_nodup_iff.mpr hsep.2
    | wire =>
      have hindices : (variants.zipIdx.map Prod.snd).Nodup := by
        rw [List.zipIdx_map_snd]
        exact List.nodup_range'
      have hinj : Function.Injective (fun index : ℕ => "variant_" ++ toString index) := by
        intro m n hmn
        exact toString_injective ((String.append_right_inj "variant_").mp hmn)
      have hmap := hindices.map hinj
      rwa [List.map_map] at hmap
    | patch => exact hnames
    | offset => exact List.nodup_nil
    | reference => exact hreference
    | mutable => exact hmutable
    | accessError => exact (tagged_accessError_nodup_iff hnames).mpr hsep.1
    | mutationError => exact (by decide : ["Access", "Layout", "TagMismatch"].Nodup)

/-- The expansion of an accepted declaration defines no name twice exactly when the declaration
is separated. -/
theorem generated_nodup_iff {ir : SchemaIr} (h : ir.validateGeneratedNames = .ok ()) :
    (∀ scope, (ir.generated scope).Nodup) ↔ ir.Separated := by
  have hreserved := (validateGeneratedNames_eq_ok ir).mp h
  cases ir with
  | struct ident fields => exact struct_nodup_iff hreserved
  | scalarEnum ident variants => exact iff_of_true (scalarEnum_nodup _) trivial
  | taggedEnum ident variants => exact taggedEnum_nodup_iff hreserved

omit [Casing] in
theorem generated_nodup_iff_rows :
    letI := Casing.ascii
    let ir := struct "Grid" [⟨"row_count", 0, .primitive .u16, none, rfl⟩,
      ⟨"rows", 1, .array (.array (.borrowedCStr 4) (.literal 2)) (.literal 3), none, rfl⟩]
    ir.validateGeneratedNames = .ok () ∧ ((∀ scope, (ir.generated scope).Nodup) ↔ ir.Separated) :=
  let _ := Casing.ascii
  have haccepted := (validateGeneratedNames_eq_ok _).mpr (by decide +kernel)
  ⟨haccepted, generated_nodup_iff haccepted⟩

omit [Casing] in
/-- The check does not look at adapters: `foo_bar` and `foo__bar` are both `FooBarAdapter`. -/
theorem validateGeneratedNames_misses_adapters :
    letI := Casing.ascii
    ¬∀ ir : SchemaIr, ir.validateGeneratedNames = .ok () →
      ∀ scope, (ir.generated scope).Nodup := by
  let _ := Casing.ascii
  intro hall
  have haccepted := (validateGeneratedNames_eq_ok (struct "Twice"
    [⟨"foo_bar", 0, .primitive .u8, none, rfl⟩,
      ⟨"foo__bar", 1, .primitive .u8, none, rfl⟩])).mpr (by decide +kernel)
  have hmodule := hall _ haccepted .module
  revert hmodule
  decide +kernel

end SchemaIr

end ZeroSchema
