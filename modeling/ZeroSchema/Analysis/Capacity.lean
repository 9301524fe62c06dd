import ZeroSchema.Analysis.Field
import ZeroSchema.Mutation.StringMut

/-! Declared capacities. A string handle's capacity and length type are the declared ones, and
whether every value with room in the capacity can be set depends on both. -/
namespace ZeroSchema
open Storage Control

namespace FieldCategory

/-- The string form of a category. -/
def string? : FieldCategory → Option StringIr
  | borrowedStr n w e => some (.str w e n)
  | borrowedCStr n => some (.cStr n)
  | borrowedU16Str n w e => some (.u16Str w e n)
  | borrowedU16CStr n => some (.u16CStr n)
  | _ => none

@[simp] theorem leaf_array (element : FieldCategory) (length : ArrayLength) :
    (array element length).leaf = element.leaf := rfl

theorem leaf_setArrayLeaf {c leaf : FieldCategory} (h : leaf.isString) :
    (c.setArrayLeaf leaf).leaf = leaf := by
  induction c with
  | array element length ih => exact ih
  | _ =>
    unfold setArrayLeaf FieldCategory.leaf
    cases leaf with
    | borrowedStr | borrowedCStr | borrowedU16Str | borrowedU16CStr => rfl
    | _ => cases h

end FieldCategory

namespace SynType

/-- The type of the innermost elements. -/
def leafType : SynType → SynType
  | array elem _ => elem.leafType
  | ty => ty

/-- `&CStr`, `&U16CStr` or an array of them. -/
def isTerminated (ty : SynType) : Bool :=
  match ty.leafType.borrowedTarget with
  | some target => target.isSingleIdent "CStr" || target.isSingleIdent "U16CStr"
  | none => false

theorem isSingleIdent_unique {ty : SynType} {a b : String} (ha : ty.isSingleIdent a)
    (hb : ty.isSingleIdent b) : a = b := by
  unfold isSingleIdent at ha hb
  split at ha
  · simp only [Bool.and_eq_true, decide_eq_true_eq] at ha hb
    exact ha.2.symm.trans hb.2
  · cases ha

end SynType

/-- A string category of the borrowed type and the declared options. -/
def FieldCategory.Declares (options : FieldOptions) (target : SynType) : FieldCategory → Prop
  | borrowedStr n w _ =>
    target.isSingleIdent "str" ∧ options.capacity = some n ∧ w = lengthType options
  | borrowedCStr n => target.isSingleIdent "CStr" ∧ options.capacity = some n
  | borrowedU16Str n w _ =>
    target.isSingleIdent "U16Str" ∧ options.capacity = some n ∧ w = lengthType options
  | borrowedU16CStr n => target.isSingleIdent "U16CStr" ∧ options.capacity = some n
  | _ => False

/-- Where a category holds a string, it is the one that the type and the options declare. -/
def Spells (options : FieldOptions) (ty : SynType) (c : FieldCategory) : Prop :=
  c.leaf.isString → ∃ target, ty.leafType.borrowedTarget = some target ∧
    c.leaf.Declares options target

section
variable {options : FieldOptions} {ty target : SynType} {c : FieldCategory}

theorem borrowedString_declares (h : borrowedString target options = .ok (some c)) :
    c.Declares options target ∧ c.leaf = c := by
  obtain ⟨n, hn, hform⟩ := borrowedString_cases h
  rcases hform with ⟨hstr, rfl⟩ | ⟨hc, rfl⟩ | ⟨hu, rfl⟩ | ⟨hw, rfl⟩
  · exact ⟨⟨hstr, hn, rfl⟩, rfl⟩
  · exact ⟨⟨hc, hn⟩, rfl⟩
  · exact ⟨⟨hu, hn, rfl⟩, rfl⟩
  · exact ⟨⟨hw, hn⟩, rfl⟩

theorem spells_of_not_string (h : c.leaf.isString = false) : Spells options ty c := by
  intro hstring
  rw [h] at hstring
  cases hstring

theorem spells_borrowed (htarget : ty.borrowedTarget = some target)
    (h : borrowedString target options = .ok (some c)) : Spells options ty c := by
  have hdeclares := borrowedString_declares h
  intro hstring
  refine ⟨target, ?_, ?_⟩
  · cases ty with
    | reference => exact htarget
    | _ => cases htarget
  · rw [hdeclares.2]
    exact hdeclares.1

theorem spells_array {elem : SynType} {len : LengthExpr} {length : ArrayLength}
    (h : Spells options elem c) : Spells options (.array elem len) (.array c length) := h

theorem ElementType.spells (h : ElementType options ty c) : Spells options ty c := by
  induction h with
  | primitive | bool | path => exact spells_of_not_string rfl
  | string htarget hstring => exact spells_borrowed htarget hstring
  | array length _ ih => exact spells_array ih

theorem classifyField_spells (h : classifyField ty options = .ok c) : Spells options ty c := by
  cases classifyField_type h with
  | element helement => exact helement.spells
  | _ => exact spells_of_not_string rfl

/-- The options that reach a string leave its form and its capacity. -/
theorem applyOptions_declares {defaultEndian : WireEndian} {target : SynType}
    {out : FieldCategory} (hdeclares : c.Declares options target)
    (h : applyOptions options defaultEndian c = .ok out) :
    out.Declares options target ∧ out.isString ∧ ∀ s, out.string? = some s → s.Accepted := by
  cases c with
  | borrowedStr n w e =>
    rw [applyOptions] at h
    split at h
    · cases h
    · obtain rfl := Except.ok.inj h
      refine ⟨hdeclares, rfl, fun s hs => ?_⟩
      obtain rfl := Option.some.inj hs
      trivial
  | borrowedU16Str n w e =>
    rw [applyOptions] at h
    split at h
    · cases h
    · obtain rfl := Except.ok.inj h
      refine ⟨hdeclares, rfl, fun s hs => ?_⟩
      obtain rfl := Option.some.inj hs
      trivial
  | borrowedCStr n =>
    rw [applyOptions] at h
    split at h
    · cases h
    · split at h
      · cases h
      · next hn =>
        obtain rfl := Except.ok.inj h
        refine ⟨hdeclares, rfl, fun s hs => ?_⟩
        obtain rfl := Option.some.inj hs
        exact hn
  | borrowedU16CStr n =>
    rw [applyOptions] at h
    split at h
    · cases h
    · split at h
      · cases h
      · next hn =>
        obtain rfl := Except.ok.inj h
        refine ⟨hdeclares, rfl, fun s hs => ?_⟩
        obtain rfl := Option.some.inj hs
        exact hn
  | _ => cases hdeclares

/-- Options make no string of anything else. -/
theorem applyOptions_leaf {defaultEndian : WireEndian} {out : FieldCategory}
    (hstring : c.leaf.isString = false) (h : applyOptions options defaultEndian c = .ok out) :
    out.leaf.isString = false := by
  cases c with
  | borrowedStr | borrowedU16Str | borrowedCStr | borrowedU16CStr => cases hstring
  | optional inner =>
    rw [applyOptions] at h
    split at h
    · cases h
    · split at h
      · cases h
      · obtain rfl := Except.ok.inj h
        rfl
  | primitive | path =>
    rw [applyOptions] at h
    split at h
    · cases h
    · obtain rfl := Except.ok.inj h
      rfl
  | bool | fixedBytes | array =>
    rw [applyOptions, withoutOptions] at h
    split at h
    · cases h
    · obtain rfl := Except.ok.inj h
      exact hstring

/-- A string of an accepted declaration is the declared one, and a terminated form has room for
its terminator. -/
theorem analyzeField_declares {defaultEndian : WireEndian} {s : StringIr}
    (h : analyzeField ty options defaultEndian = .ok c) (hs : c.leaf.string? = some s) :
    (∃ target, ty.leafType.borrowedTarget = some target ∧ c.leaf.Declares options target) ∧
      s.Accepted := by
  obtain ⟨category, hclassify, h⟩ := except_bind_ok h
  have hspells := classifyField_spells hclassify
  have hsstring : c.leaf.isString := by
    cases hc : c.leaf with
    | borrowedStr | borrowedCStr | borrowedU16Str | borrowedU16CStr => rfl
    | _ =>
      rw [hc] at hs
      cases hs
  rcases applyFieldOptions_cases h with ⟨-, hstring, leaf, hleaf, rfl⟩ | ⟨hself, hout⟩
  · obtain ⟨target, htarget, hdeclares⟩ := hspells hstring
    have happlied := applyOptions_declares hdeclares hleaf
    rw [FieldCategory.leaf_setArrayLeaf happlied.2.1] at hs ⊢
    exact ⟨⟨target, htarget, happlied.1⟩, happlied.2.2 s hs⟩
  · by_cases hstring : category.leaf.isString = true
    · obtain ⟨target, htarget, hdeclares⟩ := hspells hstring
      rw [hself hstring] at hdeclares
      have happlied := applyOptions_declares hdeclares hout
      have hleaf : c.leaf = c := by
        cases hc : c with
        | array =>
          rw [hc] at happlied
          cases happlied.2.1
        | _ => rfl
      rw [hleaf] at hs ⊢
      exact ⟨⟨target, htarget, happlied.1⟩, happlied.2.2 s hs⟩
    · have hfalse := applyOptions_leaf (by simpa using hstring) hout
      rw [hsstring] at hfalse
      cases hfalse

end

namespace StringIr

/-- The length of a value in storage units, without a terminator. -/
def units (s : StringIr) (value : s.Value) : ℕ :=
  match s, value with
  | str _ _ _, value => String.utf8ByteSize value
  | cStr _, value => (Terminated.units value).length
  | u16Str _ _ _, value => List.length value
  | u16CStr _, value => (Terminated.units value).length

/-- The units behind a value that end it. -/
def terminator : StringIr → ℕ
  | str _ _ _ | u16Str _ _ _ => 0
  | cStr _ | u16CStr _ => 1

/-- The capacity that the handle reports has room for the value and its terminator. -/
def HasRoom (s : StringIr) (value : s.Value) : Prop :=
  s.units value + s.terminator ≤ StringMut.capacity s

/-- The length type can represent the capacity. -/
def PrefixHolds : StringIr → Prop
  | str w _ n | u16Str w _ n => n < 256 ^ w.bytes
  | cStr _ | u16CStr _ => True

/-- So many letters, one byte each. -/
def letters : ℕ → String
  | 0 => ""
  | n + 1 => (letters n).push 'a'

theorem utf8ByteSize_letters (n : ℕ) : (letters n).utf8ByteSize = n := by
  induction n with
  | zero => rfl
  | succ n ih =>
    unfold letters
    rw [String.utf8ByteSize_push, ih]
    rfl

theorem hasRoom_letters {w : WireInt} {e : WireEndian} {n k : ℕ} :
    (str w e n).HasRoom (letters k) ↔ k ≤ n := by
  show (letters k).utf8ByteSize ≤ n ↔ _
  rw [utf8ByteSize_letters]

theorem fits_letters {w : WireInt} {e : WireEndian} {n k : ℕ} :
    (str w e n).Fits (letters k) ↔ k ≤ n ∧ k < 256 ^ w.bytes := by
  show (letters k).utf8ByteSize ≤ n ∧ (letters k).utf8ByteSize < _ ↔ _
  rw [utf8ByteSize_letters]

variable {s : StringIr}

/-- A value of as many units as the prefix cannot count shows the difference. -/
theorem fits_iff_hasRoom : (∀ value, s.Fits value ↔ s.HasRoom value) ↔ s.PrefixHolds := by
  cases s with
  | str w e n =>
    constructor
    · intro h
      by_contra hprefix
      have hle : 256 ^ w.bytes ≤ n := not_lt.mp hprefix
      have hroom : (str w e n).HasRoom (letters (256 ^ w.bytes)) := hasRoom_letters.mpr hle
      exact lt_irrefl _ (fits_letters.mp ((h _).mpr hroom)).2
    · intro h value
      constructor
      · intro hfits
        exact hfits.1
      · intro hroom
        exact ⟨hroom, lt_of_le_of_lt hroom h⟩
  | cStr n =>
    refine ⟨fun _ => trivial, fun _ value => ?_⟩
    show (Terminated.withNul value).length ≤ n ↔ _
    rw [Terminated.length_withNul]
    rfl
  | u16Str w e n =>
    constructor
    · intro h
      by_contra hprefix
      have hle : 256 ^ w.bytes ≤ n := not_lt.mp hprefix
      have hvalue : (List.replicate (256 ^ w.bytes) (0 : UInt16)).length = 256 ^ w.bytes :=
        List.length_replicate
      have hroom : (u16Str w e n).HasRoom (List.replicate (256 ^ w.bytes) 0) := hvalue.trans_le hle
      have hfits := ((h _).mpr hroom).2
      rw [hvalue] at hfits
      exact lt_irrefl _ hfits
    · intro h value
      constructor
      · intro hfits
        exact hfits.1
      · intro hroom
        exact ⟨hroom, lt_of_le_of_lt hroom h⟩
  | u16CStr n =>
    refine ⟨fun _ => trivial, fun _ value => ?_⟩
    show (Terminated.withNul value).length ≤ n ↔ _
    rw [Terminated.length_withNul]
    rfl

end StringIr

/-- The declared length type can represent the declared capacity, or there is no prefix. -/
def CapacityFits (ty : SynType) (options : FieldOptions) : Prop :=
  ty.isTerminated ∨ ∀ n, options.capacity = some n → n < 256 ^ (lengthType options).bytes

section
variable {ty : SynType} {options : FieldOptions} {defaultEndian : WireEndian} {c : FieldCategory}
  {s : StringIr}

theorem capacityFits_iff (h : analyzeField ty options defaultEndian = .ok c)
    (hs : c.leaf.string? = some s) : CapacityFits ty options ↔ s.PrefixHolds := by
  obtain ⟨⟨target, htarget, hdeclares⟩, -⟩ := analyzeField_declares h hs
  have hterminated : ty.isTerminated =
      (target.isSingleIdent "CStr" || target.isSingleIdent "U16CStr") := by
    unfold SynType.isTerminated
    rw [htarget]
  unfold CapacityFits
  rw [hterminated]
  have hprefixed {name : String} (hname : target.isSingleIdent name) (hc : name ≠ "CStr")
      (hu : name ≠ "U16CStr") :
      ¬(target.isSingleIdent "CStr" || target.isSingleIdent "U16CStr") = true := by
    intro hor
    rcases Bool.or_eq_true_iff.mp hor with hor | hor
    · exact hc (SynType.isSingleIdent_unique hname hor)
    · exact hu (SynType.isSingleIdent_unique hname hor)
  cases hleaf : c.leaf with
  | borrowedStr n w e =>
    rw [hleaf] at hs hdeclares
    obtain rfl := Option.some.inj hs
    obtain ⟨hname, hcapacity, rfl⟩ := hdeclares
    rw [or_iff_right (hprefixed hname (by decide) (by decide)), hcapacity]
    simp [StringIr.PrefixHolds]
  | borrowedU16Str n w e =>
    rw [hleaf] at hs hdeclares
    obtain rfl := Option.some.inj hs
    obtain ⟨hname, hcapacity, rfl⟩ := hdeclares
    rw [or_iff_right (hprefixed hname (by decide) (by decide)), hcapacity]
    simp [StringIr.PrefixHolds]
  | borrowedCStr n =>
    rw [hleaf] at hs hdeclares
    obtain rfl := Option.some.inj hs
    have hname : target.isSingleIdent "CStr" = true := hdeclares.1
    simp [hname, StringIr.PrefixHolds]
  | borrowedU16CStr n =>
    rw [hleaf] at hs hdeclares
    obtain rfl := Option.some.inj hs
    have hname : target.isSingleIdent "U16CStr" = true := hdeclares.1
    simp [hname, StringIr.PrefixHolds]
  | _ =>
    rw [hleaf] at hs
    cases hs

/-- Whether every value with room in the reported capacity can be set, and no other one. -/
def CapacityHolds [Target] (s : StringIr) : Prop :=
  ∀ (ctx : Context) (input : Input s.wire) (value : s.Value),
    (∃ out, StringMut.set s ctx input value = some (.ok (), out)) ↔ s.HasRoom value

/-- An accepted declaration keeps its promise exactly when its length type can represent the
capacity. The compiler accepts no larger type than `isize::MAX` bytes. -/
theorem capacityHolds_iff [Target] (h : analyzeField ty options defaultEndian = .ok c)
    (hs : c.leaf.string? = some s) (hsize : s.wire.size ≤ isizeMax) :
    CapacityHolds s ↔ CapacityFits ty options := by
  rw [capacityFits_iff h hs, ← StringIr.fits_iff_hasRoom]
  have hset (ctx : Context) (input : Input s.wire) (value : s.Value) :=
    (s.roundTrip_wire ctx ctx).succeeds input value
  constructor
  · intro hholds value
    let input : Input s.wire := ⟨0, Bytes.zero _, dvd_zero _, hsize⟩
    rw [← hset .root input value]
    exact hholds .root input value
  · intro hfits ctx input value
    rw [hset ctx input value]
    exact hfits value

end

/-- `&'a str` -/
def borrowedStrType : SynType :=
  .reference (some "a") false (.path false false [⟨"str", true⟩])

/-- `#[zero(capacity = 300, len_type = …)]` -/
def capacity300 (lenType : WireInt) : FieldOptions := ⟨some 300, some lenType, none, none⟩

theorem capacityHolds_iff_u16 :
    letI := Target.lp64
    CapacityHolds (.str .u16 .native 300) ↔ CapacityFits borrowedStrType (capacity300 .u16) :=
  let _ := Target.lp64
  have haccepted : analyzeField borrowedStrType (capacity300 .u16) .native =
      .ok (.borrowedStr 300 .u16 .native) := rfl
  capacityHolds_iff haccepted rfl (by decide)

/-- 256 letters have room in the capacity and cannot be counted in the prefix. -/
theorem capacity_overpromised :
    letI := Target.lp64
    analyzeField borrowedStrType (capacity300 .u8) .native = .ok (.borrowedStr 300 .u8 .native) ∧
    (StringIr.str .u8 .native 300).HasRoom (StringIr.letters 256) ∧
    ∃ input : Input (StringIr.str .u8 .native 300).wire,
      ¬∃ out, StringMut.set (.str .u8 .native 300) .root input (StringIr.letters 256) =
        some (.ok (), out) := by
  let _ := Target.lp64
  have hroom : (StringIr.str .u8 .native 300).HasRoom (StringIr.letters 256) :=
    StringIr.hasRoom_letters.mpr (by decide)
  refine ⟨rfl, hroom, ⟨0, Bytes.zero _, dvd_zero _, by decide⟩, ?_⟩
  rw [((StringIr.str .u8 .native 300).roundTrip_wire .root .root).succeeds]
  intro hfits
  have hlt := (StringIr.fits_letters.mp hfits).2
  exact absurd hlt (by decide)

end ZeroSchema
