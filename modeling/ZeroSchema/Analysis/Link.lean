import ZeroSchema.Analysis.Names
import ZeroSchema.Analysis.Options
import ZeroSchema.Library.Pass

/-! The link of a tagged payload to the sibling field that stores its tag. -/
namespace ZeroSchema
open Control

/-- A field declaration whose category has been analyzed. -/
structure DeclaredField where
  ident : String
  ty : SynType
  options : DeclaredOptions
  defaultEndian : WireEndian
  category : FieldCategory
  analyzed : analyzeField ty options.toFieldOptions defaultEndian = .ok category

def DeclaredField.logicalName (field : DeclaredField) : String := normalizedIdent field.ident

section
variable {n : ℕ} (fields : Fin n → DeclaredField)

/-- The field of a name. Of several the last one is kept. -/
def lookup (name : String) : Option (Fin n) :=
  lastIndex fun i => (fields i).logicalName = name

/-- The tag fields that are taken, and the links. -/
abbrev Links (n : ℕ) : Type := Finset (Fin n) × (Fin n → Option (Fin n))

def linkTag (links : Links n) (index : Fin n) : Outcome String (Links n) :=
  if (fields index).category ≠ .path true then .ok links
  else do
    let requested ← Outcome.expect (fields index).options.tagField
    let logical := normalizedIdent requested
    match lookup fields logical with
    | none => .err ("tag_field `" ++ logical ++ "` does not name a sibling field")
    | some tag =>
      if tag = index then .err "tag_field cannot name the payload field itself"
      else if (fields tag).category ≠ .path false then
        .err "tag_field must name a scalar-enum schema field"
      else if tag ∈ links.1 then
        .err "each external tag field may be used by exactly one tagged payload"
      else .ok (insert tag links.1, Function.update links.2 index (some tag))

def linkExternalTags : Outcome String (Fin n → Option (Fin n)) := do
  let links ← pass (linkTag fields) (∅, fun _ => none)
  .ok links.2

/-! ### Links without the pass -/

/-- The sibling that a tagged payload names. -/
def target (index : Fin n) : Option (Fin n) :=
  if (fields index).category = .path true then
    (fields index).options.tagField.bind fun requested => lookup fields (normalizedIdent requested)
  else none

/-- What is wrong with the link of a field. -/
def linkFault (index : Fin n) : Option String :=
  if (fields index).category ≠ .path true then none
  else match target fields index with
  | none =>
    some ("tag_field `" ++ normalizedIdent ((fields index).options.tagField.getD "") ++
      "` does not name a sibling field")
  | some tag =>
    if tag = index then some "tag_field cannot name the payload field itself"
    else if (fields tag).category ≠ .path false then
      some "tag_field must name a scalar-enum schema field"
    else if ∃ j < index, target fields j = some tag then
      some "each external tag field may be used by exactly one tagged payload"
    else none

/-- What the pass keeps after the first `k` fields. -/
def linksAfter (k : ℕ) : Links n :=
  (Finset.univ.filter fun t => ∃ j : Fin n, j.val < k ∧ target fields j = some t,
    fun i => if i.val < k then target fields i else none)

variable {fields}

/-- A tagged payload names a tag field. -/
theorem tagField_isSome {field : DeclaredField} (h : field.category = .path true) :
    field.options.tagField.isSome = true := by
  obtain ⟨c, -, happly⟩ := except_bind_ok field.analyzed
  rw [h] at happly
  rcases applyFieldOptions_cases happly with ⟨harray, -, leaf, -, hout⟩ | ⟨-, happly⟩
  · cases c with
    | array element length => cases hout
    | _ => cases harray
  · cases c with
    | path tagged =>
      rw [applyOptions] at happly
      split_ifs at happly
      exact FieldCategory.path.inj (Except.ok.inj happly)
    | bool | fixedBytes | array =>
      rw [applyOptions, withoutOptions] at happly
      split_ifs at happly
      cases happly
    | _ =>
      rw [applyOptions] at happly
      split_ifs at happly
      cases happly

theorem linksAfter_zero : linksAfter fields 0 = (∅, fun _ => none) := by
  unfold linksAfter
  simp

theorem linksAfter_last : (linksAfter fields n).2 = target fields := by
  funext i
  exact if_pos i.isLt

theorem lt_succ_iff {i j : Fin n} : j.val < i.val + 1 ↔ j.val < i.val ∨ j = i := by
  rw [Fin.ext_iff]
  omega

/-- A field without a link leaves what is kept. -/
theorem linksAfter_none {i : Fin n} (h : target fields i = none) :
    linksAfter fields (i + 1) = linksAfter fields i := by
  apply Prod.ext
  · ext t
    simp only [linksAfter, Finset.mem_filter, Finset.mem_univ, true_and, lt_succ_iff]
    constructor
    · intro ⟨j, hj, ht⟩
      rcases hj with hj | rfl
      · exact ⟨j, hj, ht⟩
      · rw [h] at ht
        cases ht
    · intro ⟨j, hj, ht⟩
      exact ⟨j, Or.inl hj, ht⟩
  · funext j
    simp only [linksAfter, lt_succ_iff]
    by_cases hj : j = i
    · simp [hj, h]
    · simp [hj]

theorem linksAfter_some {i t : Fin n} (h : target fields i = some t) :
    linksAfter fields (i + 1) = (insert t (linksAfter fields i).1,
      Function.update (linksAfter fields i).2 i (some t)) := by
  apply Prod.ext
  · ext u
    simp only [linksAfter, Finset.mem_insert, Finset.mem_filter, Finset.mem_univ, true_and,
      lt_succ_iff]
    constructor
    · intro ⟨j, hj, hu⟩
      rcases hj with hj | rfl
      · exact Or.inr ⟨j, hj, hu⟩
      · exact Or.inl (Option.some.inj (hu.symm.trans h))
    · intro hu
      rcases hu with rfl | ⟨j, hj, hu⟩
      · exact ⟨i, Or.inr rfl, h⟩
      · exact ⟨j, Or.inl hj, hu⟩
  · funext j
    simp only [linksAfter, lt_succ_iff]
    by_cases hj : j = i
    · simp [hj, h]
    · simp [hj]

theorem mem_linksAfter {i t : Fin n} :
    t ∈ (linksAfter fields i).1 ↔ ∃ j < i, target fields j = some t := by
  simp [linksAfter]

/-- One step of the pass finds the fault of its field, or goes on to the next state. -/
theorem linkTag_eq (i : Fin n) : linkTag fields (linksAfter fields i) i =
    (linkFault fields i).elim (.ok (linksAfter fields (i + 1))) .err := by
  unfold linkTag linkFault
  by_cases hpayload : (fields i).category = .path true
  · rw [if_neg (not_not.mpr hpayload), if_neg (not_not.mpr hpayload)]
    obtain ⟨requested, hrequested⟩ := Option.isSome_iff_exists.mp (tagField_isSome hpayload)
    have htarget : target fields i = lookup fields (normalizedIdent requested) := by
      unfold target
      rw [if_pos hpayload, hrequested]
      rfl
    rw [hrequested, Outcome.expect_some, Outcome.ok_bind, Option.getD_some]
    dsimp only
    rw [← htarget]
    cases ht : target fields i with
    | none => rfl
    | some t =>
      dsimp only
      by_cases hself : t = i
      · rw [if_pos hself, if_pos hself]
        rfl
      · rw [if_neg hself, if_neg hself]
        by_cases hcategory : (fields t).category ≠ .path false
        · rw [if_pos hcategory, if_pos hcategory]
          rfl
        · rw [if_neg hcategory, if_neg hcategory]
          by_cases hclaimed : t ∈ (linksAfter fields i).1
          · rw [if_pos hclaimed, if_pos (mem_linksAfter.mp hclaimed)]
            rfl
          · rw [if_neg hclaimed, if_neg (fun h => hclaimed (mem_linksAfter.mpr h)),
              Option.elim_none, linksAfter_some ht]
  · rw [if_pos hpayload, if_pos hpayload]
    have htarget : target fields i = none := if_neg hpayload
    rw [Option.elim_none, linksAfter_none htarget]

/-- The pass reports the first fault in declaration order, or links every payload to the sibling
that it names. -/
theorem linkExternalTags_eq : linkExternalTags fields =
    (firstFault (linkFault fields)).elim (.ok (target fields)) .err := by
  unfold linkExternalTags
  rw [← linksAfter_zero, pass_eq fun i _ => linkTag_eq i]
  cases firstFault (linkFault fields) with
  | none => exact congrArg Outcome.ok linksAfter_last
  | some e => rfl

variable (fields) in
/-- A tagged payload names a sibling: the last field of the name that its option gives. -/
def Names (i t : Fin n) : Prop :=
  (fields i).category = .path true ∧ ∃ requested, (fields i).options.tagField = some requested ∧
    (fields t).logicalName = normalizedIdent requested ∧
    ∀ s > t, (fields s).logicalName ≠ normalizedIdent requested

theorem target_eq_some {i t : Fin n} : target fields i = some t ↔ Names fields i t := by
  unfold target Names
  by_cases hpayload : (fields i).category = .path true
  · rw [if_pos hpayload, Option.bind_eq_some_iff, and_iff_right hpayload]
    simp only [lookup, lastIndex_eq_some]
  · rw [if_neg hpayload]
    constructor
    · intro h
      cases h
    · intro h
      exact absurd h.1 hpayload

theorem linkFault_eq_none {i : Fin n} : linkFault fields i = none ↔
    ((fields i).category = .path true → ∃ t, Names fields i t) ∧
      ∀ t, Names fields i t → t ≠ i ∧ (fields t).category = .path false ∧
        ∀ j < i, ¬Names fields j t := by
  unfold linkFault
  by_cases hpayload : (fields i).category = .path true
  · rw [if_neg (not_not.mpr hpayload)]
    cases ht : target fields i with
    | none =>
      have hnot : ¬∃ t, Names fields i t := by
        intro ⟨t, hnames⟩
        rw [target_eq_some.mpr hnames] at ht
        cases ht
      exact iff_of_false (by simp) fun h => hnot (h.1 hpayload)
    | some t =>
      have hnames := target_eq_some.mp ht
      have hunique (u : Fin n) (hu : Names fields i u) : u = t :=
        Option.some.inj ((target_eq_some.mpr hu).symm.trans ht)
      have hbefore : (∃ j < i, target fields j = some t) ↔ ∃ j < i, Names fields j t := by
        simp only [target_eq_some]
      dsimp only
      split_ifs with hself hcategory hclaimed
      · exact iff_of_false (by simp) fun h => (h.2 t hnames).1 hself
      · exact iff_of_false (by simp) fun h => hcategory (h.2 t hnames).2.1
      · obtain ⟨j, hj, hjt⟩ := hbefore.mp hclaimed
        exact iff_of_false (by simp) fun h => (h.2 t hnames).2.2 j hj hjt
      · refine iff_of_true rfl ⟨fun _ => ⟨t, hnames⟩, ?_⟩
        intro u hu
        rw [hunique u hu]
        exact ⟨hself, not_not.mp hcategory, fun j hj hjt => hclaimed (hbefore.mpr ⟨j, hj, hjt⟩)⟩
  · rw [if_pos hpayload]
    exact iff_of_true rfl ⟨fun h => absurd h hpayload, fun t ht => absurd ht.1 hpayload⟩

/-- No payload has a fault when every one names a sibling of its own that refers to a schema. -/
theorem firstFault_linkFault : firstFault (linkFault fields) = none ↔
    (∀ i, (fields i).category = .path true → ∃ t, Names fields i t) ∧
      ∀ i t, Names fields i t → t ≠ i ∧ (fields t).category = .path false ∧
        ∀ j, Names fields j t → j = i := by
  rw [firstFault_eq_none]
  simp only [linkFault_eq_none]
  constructor
  · intro h
    refine ⟨fun i => (h i).1, ?_⟩
    intro i t ht
    obtain ⟨hself, hcategory, hbefore⟩ := (h i).2 t ht
    refine ⟨hself, hcategory, ?_⟩
    intro j hj
    rcases lt_trichotomy j i with hlt | heq | hgt
    · exact absurd hj (hbefore j hlt)
    · exact heq
    · exact absurd ht (((h j).2 t hj).2.2 i hgt)
  · intro ⟨hlinked, hsound⟩ i
    refine ⟨hlinked i, ?_⟩
    intro t ht
    obtain ⟨hself, hcategory, hunique⟩ := hsound i t ht
    exact ⟨hself, hcategory, fun j hj hjt => hj.ne (hunique j hjt)⟩

theorem linkExternalTags_eq_ok {links : Fin n → Option (Fin n)} :
    linkExternalTags fields = .ok links ↔
      (∀ i t, links i = some t ↔ Names fields i t) ∧
      (∀ i, (fields i).category = .path true → ∃ t, Names fields i t) ∧
      ∀ i t, Names fields i t → t ≠ i ∧ (fields t).category = .path false ∧
        ∀ j, Names fields j t → j = i := by
  have hlinks : links = target fields ↔ ∀ i t, links i = some t ↔ Names fields i t := by
    simp only [← target_eq_some]
    constructor
    · intro h i t
      rw [h]
    · intro h
      funext i
      exact Option.ext fun t => h i t
  rw [← hlinks, ← firstFault_linkFault, linkExternalTags_eq]
  cases firstFault (linkFault fields) with
  | none => simp [eq_comm]
  | some e => simp

/-- Every payload is linked to the sibling that it names, when the siblings are references to
schemas of their own and no two payloads name the same. Otherwise the fault of the first payload
is reported. The pass never comes to a payload without a name. -/
theorem links_are_exact (fields : Fin n → DeclaredField) :
    (∀ links, linkExternalTags fields = .ok links ↔
      (∀ i t, links i = some t ↔ Names fields i t) ∧
      (∀ i, (fields i).category = .path true → ∃ t, Names fields i t) ∧
      ∀ i t, Names fields i t → t ≠ i ∧ (fields t).category = .path false ∧
        ∀ j, Names fields j t → j = i) ∧
    (∀ message, linkExternalTags fields = .err message ↔
      ∃ i, linkFault fields i = some message ∧ ∀ j < i,
        ((fields j).category = .path true → ∃ t, Names fields j t) ∧
        ∀ t, Names fields j t → t ≠ j ∧ (fields t).category = .path false ∧
          ∀ k < j, ¬Names fields k t) ∧
    linkExternalTags fields ≠ .unreachable := by
  refine ⟨fun links => linkExternalTags_eq_ok, ?_, ?_⟩
  · intro message
    have hfirst : firstFault (linkFault fields) = some message ↔ _ := firstFault_eq_some
    simp only [linkFault_eq_none] at hfirst
    rw [← hfirst, linkExternalTags_eq]
    cases firstFault (linkFault fields) with
    | none => simp
    | some e => simp
  · rw [linkExternalTags_eq]
    cases firstFault (linkFault fields) with
    | none => simp
    | some e => simp

end

end ZeroSchema
