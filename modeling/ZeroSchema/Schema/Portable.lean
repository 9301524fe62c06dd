import ZeroSchema.Schema.Emitted
import ZeroSchema.Schema.Fault

/-! One declaration on two machines. Where the machines align alike, and where no part of the
declaration that is longer than a byte is left to a byte order in which they differ, the same bytes
mean the same on both. -/
namespace ZeroSchema
open Storage

/-- Machines on which every type has the same alignment. -/
structure Target.AlignsAs (T U : Target) : Prop where
  align16 : T.logAlign16 = U.logAlign16
  align32 : T.logAlign32 = U.logAlign32
  align64 : T.logAlign64 = U.logAlign64

theorem Target.AlignsAs.symm {T U : Target} (h : T.AlignsAs U) : U.AlignsAs T :=
  ⟨h.align16.symm, h.align32.symm, h.align64.symm⟩

/-- One byte has one order; more are read alike where the byte order is the same. -/
def WireEndian.Portable (T U : Target) (e : WireEndian) (bytes : ℕ) : Prop :=
  bytes = 1 ∨ @WireEndian.order T e = @WireEndian.order U e

instance (T U : Target) (e : WireEndian) (bytes : ℕ) : Decidable (e.Portable T U bytes) :=
  inferInstanceAs (Decidable (_ ∨ _))

/-- Wide units are native on every machine. -/
def StringIr.Portable (T U : Target) : StringIr → Prop
  | str w e _ => e.Portable T U w.bytes
  | cStr _ => True
  | u16Str w e _ => e.Portable T U w.bytes ∧ T.endian = U.endian
  | u16CStr _ => T.endian = U.endian

instance (T U : Target) (s : StringIr) : Decidable (s.Portable T U) :=
  match s with
  | .str _ _ _ => inferInstanceAs (Decidable (WireEndian.Portable _ _ _ _))
  | .cStr _ => inferInstanceAs (Decidable True)
  | .u16Str _ _ _ => inferInstanceAs (Decidable (WireEndian.Portable _ _ _ _ ∧ _))
  | .u16CStr _ => inferInstanceAs (Decidable (_ = _))

namespace Category

/-- No part is left to a byte order in which the machines differ. -/
def Portable (T U : Target) : Category → Prop
  | primitive p e => e.Portable T U p.width.bytes
  | string s => s.Portable T U
  | scalarEnum ir | tagSibling ir => ir.endian.Portable T U ir.repr.bytes
  | struct ir fields => ∀ i : Fin ir.arity, Portable T U (fields i)
  | tagged ir payload => ∀ k : Fin ir.arity, Portable T U (payload k)
  | array element _ => Portable T U element
  | optional _ inner => Portable T U inner
  | bool | fixedBytes _ | unit => True

instance decidablePortable (T U : Target) : (c : Category) → Decidable (c.Portable T U)
  | primitive _ _ => inferInstanceAs (Decidable (WireEndian.Portable _ _ _ _))
  | string s => inferInstanceAs (Decidable (s.Portable T U))
  | scalarEnum _ | tagSibling _ => inferInstanceAs (Decidable (WireEndian.Portable _ _ _ _))
  | struct ir fields =>
    have := fun i => decidablePortable T U (fields i)
    inferInstanceAs (Decidable (∀ i : Fin ir.arity, (fields i).Portable T U))
  | tagged ir payload =>
    have := fun k => decidablePortable T U (payload k)
    inferInstanceAs (Decidable (∀ k : Fin ir.arity, (payload k).Portable T U))
  | array element _ => decidablePortable T U element
  | optional _ inner => decidablePortable T U inner
  | bool | fixedBytes _ | unit => inferInstanceAs (Decidable True)

end Category

section
variable {T U : Target}

theorem WireEndian.Portable.symm {e : WireEndian} {bytes : ℕ} (h : e.Portable T U bytes) :
    e.Portable U T bytes := h.imp id Eq.symm

theorem StringIr.Portable.symm {s : StringIr} (h : s.Portable T U) : s.Portable U T := by
  cases s with
  | str w e n => exact WireEndian.Portable.symm h
  | cStr n => trivial
  | u16Str w e n => exact ⟨WireEndian.Portable.symm h.1, h.2.symm⟩
  | u16CStr n => exact Eq.symm h

theorem Category.Portable.symm {c : Category} (h : c.Portable T U) : c.Portable U T := by
  induction c with
  | primitive p e => exact WireEndian.Portable.symm h
  | string s => exact StringIr.Portable.symm h
  | scalarEnum ir => exact WireEndian.Portable.symm h
  | tagSibling ir => exact WireEndian.Portable.symm h
  | struct ir fields ih => exact fun i => ih i (h i)
  | tagged ir payload ih => exact fun k => ih k (h k)
  | array element n ih => exact ih h
  | optional align inner ih => exact ih h
  | bool | fixedBytes | unit => trivial

/-! ### Layouts and places -/

theorem Width.layout_portable (h : T.AlignsAs U) (w : Width) :
    @Width.layout T w = @Width.layout U w := by
  have hlog : @Width.logAlign T w = @Width.logAlign U w := by
    cases w with
    | w8 => rfl
    | w16 => exact h.align16
    | w32 => exact h.align32
    | w64 => exact h.align64
  unfold Width.layout
  simp only [hlog]

theorem StringIr.members_portable (h : T.AlignsAs U) (w : WireInt) (data : Layout) :
    @StringIr.members T w data = @StringIr.members U w data := by
  have hwidth := Width.layout_portable h w.width
  funext i
  match i with
  | 0 => exact hwidth
  | 1 => rfl

theorem StringIr.unitData_portable (h : T.AlignsAs U) (n : ℕ) :
    @StringIr.unitData T n = @StringIr.unitData U n := by
  unfold StringIr.unitData
  simp only [h.align16]

theorem StringIr.wire_portable (h : T.AlignsAs U) (s : StringIr) :
    @StringIr.wire T s = @StringIr.wire U s := by
  cases s with
  | str w e n => exact congrArg Layout.record (StringIr.members_portable h w (byteData n))
  | cStr n => rfl
  | u16Str w e n =>
    show Layout.record (@members T w (@unitData T n)) = Layout.record (@members U w (@unitData U n))
    rw [StringIr.unitData_portable h, StringIr.members_portable h]
  | u16CStr n => exact StringIr.unitData_portable h n

namespace Category

/-- One layout on both machines. -/
theorem wire_portable (h : T.AlignsAs U) (c : Category) : @wire T c = @wire U c := by
  induction c with
  | primitive p e => exact Width.layout_portable h p.width
  | bool | fixedBytes | unit => rfl
  | string s => exact StringIr.wire_portable h s
  | scalarEnum ir => exact Width.layout_portable h ir.repr.width
  | tagSibling ir => exact Width.layout_portable h ir.repr.width
  | struct ir fields ih =>
    have hfields : (fun i => @wire T (fields i)) = fun i => @wire U (fields i) := funext ih
    exact congrArg (fun w : Fin ir.arity → Layout =>
      alignedWire ir.align (Layout.record fun i => alignedWire (ir.fieldAlign i) (w i))) hfields
  | tagged ir payload ih =>
    have hpayload : (fun k => @wire T (payload k)) = fun k => @wire U (payload k) := funext ih
    exact congrArg Layout.union hpayload
  | array element n ih => exact congrArg (Layout.array · n) ih
  | optional align inner ih => exact congrArg (alignedWire align) ih

theorem accepted_portable (h : T.AlignsAs U) {c : Category} (hacc : @Accepted T c) :
    @Accepted U c := by
  induction c with
  | primitive | bool | scalarEnum | tagSibling | unit => trivial
  | string s => exact hacc
  | fixedBytes n => exact hacc
  | struct ir fields ih =>
    refine ⟨fun i => ⟨ih i (hacc.1 i).1, (hacc.1 i).2⟩, hacc.2.1, ?_⟩
    rw [← wire_portable h]
    exact hacc.2.2
  | tagged ir payload ih =>
    exact ⟨fun k => ⟨ih k (hacc.1 k).1, (hacc.1 k).2⟩, hacc.2⟩
  | array element n ih => exact ⟨ih hacc.1, hacc.2⟩
  | optional align inner ih => exact ⟨ih hacc.1, hacc.2⟩

theorem fieldPlace_offset [Target] (ir : StructIr) (fields : Fin ir.arity → Category)
    (i : Fin ir.arity) : (fieldPlace ir fields i).offset =
      Layout.fieldOffset (fun i => alignedWire (ir.fieldAlign i) (fields i).wire) i := by
  show (valuePlace ir.align _).offset + _ + (valuePlace (ir.fieldAlign i) _).offset = _
  rw [valuePlace_offset, valuePlace_offset, Nat.zero_add]
  rfl

/-- Fields at one offset on both machines. -/
theorem fieldPlace_portable (h : T.AlignsAs U) (ir : StructIr) (fields : Fin ir.arity → Category)
    (i : Fin ir.arity) :
    (@fieldPlace T ir fields i).offset = (@fieldPlace U ir fields i).offset := by
  have hfields : (fun i => @wire T (fields i)) = fun i => @wire U (fields i) :=
    funext fun i => wire_portable h (fields i)
  rw [@fieldPlace_offset T, @fieldPlace_offset U]
  exact congrArg (fun w : Fin ir.arity → Layout =>
    Layout.fieldOffset (fun i => alignedWire (ir.fieldAlign i) (w i)) i) hfields

theorem elementPlace_portable (h : T.AlignsAs U) (element : Category) {n : ℕ} (j : Fin n) :
    (@elementPlace T element n j).offset = (@elementPlace U element n j).offset :=
  congrArg (fun L : Layout => j * L.size) (wire_portable h element)

theorem presentPlace_portable (align : Option Alignment) (inner : Category) :
    (@presentPlace T align inner).offset = (@presentPlace U align inner).offset :=
  (valuePlace_offset align _).trans (valuePlace_offset align _).symm

section Parts
variable (h : T.AlignsAs U)
include h

theorem size_portable (c : Category) : (@wire T c).size = (@wire U c).size :=
  congrArg Layout.size (wire_portable h c)

/-- The bytes of a field are the same ones on both machines. -/
theorem field_portable {ir : StructIr} {fields : Fin ir.arity → Category}
    {b : Bytes (@wire T (struct ir fields)).size} {b' : Bytes (@wire U (struct ir fields)).size}
    (hb : b.toList = b'.toList) (i : Fin ir.arity) :
    ((@fieldPlace T ir fields i).get b).toList = ((@fieldPlace U ir fields i).get b').toList :=
  Cell.toList_get_congr (fieldPlace_portable h ir fields i) (size_portable h (fields i)) hb

theorem element_portable {element : Category} {n : ℕ}
    {b : Bytes (@wire T (array element n)).size} {b' : Bytes (@wire U (array element n)).size}
    (hb : b.toList = b'.toList) (j : Fin n) :
    ((@elementPlace T element n j).get b).toList = ((@elementPlace U element n j).get b').toList :=
  Cell.toList_get_congr (elementPlace_portable h element j) (size_portable h element) hb

theorem present_portable {align : Option Alignment} {inner : Category}
    {b : Bytes (@wire T (optional align inner)).size}
    {b' : Bytes (@wire U (optional align inner)).size} (hb : b.toList = b'.toList) :
    ((@presentPlace T align inner).get b).toList = ((@presentPlace U align inner).get b').toList :=
  Cell.toList_get_congr (presentPlace_portable align inner) (size_portable h inner) hb

theorem payload_portable {ir : TaggedIr} {payload : Fin ir.arity → Category}
    {b : Bytes (@wire T (tagged ir payload)).size} {b' : Bytes (@wire U (tagged ir payload)).size}
    (hb : b.toList = b'.toList) (k : Fin ir.arity) :
    ((@payloadPlace T ir payload k).get b).toList =
      ((@payloadPlace U ir payload k).get b').toList :=
  Cell.toList_get_congr rfl (size_portable h (payload k)) hb

end Parts

end Category

/-! ### Values -/

/-- A string of one byte, or of a common order, is one number. -/
theorem WireEndian.Portable.decode {e : WireEndian} {n : ℕ} (h : e.Portable T U n)
    {l : List UInt8} (hl : l.length = n) :
    (@WireEndian.order T e).decode l = (@WireEndian.order U e).decode l := by
  rcases h with rfl | h
  · obtain ⟨x, rfl⟩ := List.length_eq_one_iff.mp hl
    cases @WireEndian.order T e <;> cases @WireEndian.order U e <;> rfl
  · rw [h]

theorem nativeUnits_portable (h : T.endian = U.endian) (l : List UInt8) :
    @nativeUnits T l = @nativeUnits U l := by
  induction l using nativeUnits.induct with
  | case1 x y rest ih => rw [@nativeUnits.eq_1 T, @nativeUnits.eq_1 U, h, ih]
  | case2 l hl => rw [@nativeUnits.eq_2 T l hl, @nativeUnits.eq_2 U l hl]

namespace StringIr

section
variable (h : T.AlignsAs U)
include h

theorem size_portable (s : StringIr) : (@wire T s).size = (@wire U s).size :=
  congrArg Layout.size (wire_portable h s)

/-- The prefix and the data of a string are the same bytes on both machines. -/
theorem members_get_portable {w : WireInt} {L M : Layout} (hdata : L = M)
    {b : Bytes (Layout.record (@members T w L)).size} {b' : Bytes (Layout.record (@members U w M)).size}
    (hb : b.toList = b'.toList) :
    ((@lenPlace T w L).get b).toList = ((@lenPlace U w M).get b').toList ∧
      ((@dataPlace T w L).get b).toList = ((@dataPlace U w M).get b').toList := by
  have hmembers : @members T w L = @members U w M := by rw [hdata, members_portable h]
  have hoffset (i : Fin 2) : (Place.field (@members T w L) i).offset =
      (Place.field (@members U w M) i).offset :=
    congrArg (Layout.fieldOffset · i) hmembers
  exact ⟨Cell.toList_get_congr (hoffset 0) rfl hb,
    Cell.toList_get_congr (hoffset 1) (congrArg Layout.size hdata) hb⟩

theorem faultKind_portable {s : StringIr} (hs : s.Portable T U) {b : Bytes (@wire T s).size}
    {b' : Bytes (@wire U s).size} (hb : b.toList = b'.toList) :
    @faultKind T s b = @faultKind U s b' := by
  cases s with
  | str w e n =>
    obtain ⟨hlen, hdata⟩ := members_get_portable h rfl hb
    have hraw := WireEndian.Portable.decode hs ((@lenPlace T w (byteData n)).get b).length_eq
    unfold faultKind WireInt.raw
    simp only [hdata, ← hlen, hraw]
  | cStr n =>
    unfold faultKind
    simp only [hb]
  | u16Str w e n =>
    obtain ⟨hlen, -⟩ := members_get_portable h (unitData_portable h n) hb
    have hraw := WireEndian.Portable.decode hs.1 ((@lenPlace T w (@unitData T n)).get b).length_eq
    unfold faultKind WireInt.raw
    simp only [← hlen, hraw]
  | u16CStr n =>
    unfold faultKind
    simp only [hb, nativeUnits_portable hs]

theorem decode_portable {s : StringIr} (hs : s.Portable T U) {b : Bytes (@wire T s).size}
    {b' : Bytes (@wire U s).size} (hb : b.toList = b'.toList)
    (hfits : s.capacity ≤ @usizeMax U) {v : s.Value} (hv : @decode T s b = .ok v) :
    @decode U s b' = .ok v := by
  have active {e : WireEndian} {n m capacity : ℕ} (he : e.Portable T U n) {l l' : List UInt8}
      (hn : l.length = n) (hl : l = l') (hmax : capacity ≤ @usizeMax U)
      (hm : @activeLength T e l capacity = .ok m) : @activeLength U e l' capacity = .ok m := by
    obtain ⟨hraw, hcap, -⟩ := (@activeLength_eq_ok T _ _ _ _).mp hm
    refine (@activeLength_eq_ok U _ _ _ _).mpr ⟨?_, hcap, hcap.trans hmax⟩
    rw [← hraw, ← hl]
    exact (he.decode hn).symm
  cases s with
  | str w e n =>
    obtain ⟨hlen, hdata⟩ := members_get_portable h rfl hb
    obtain ⟨hact, htake⟩ := (@proveStr_eq_ok T _ _ _ _).mp hv
    refine (@proveStr_eq_ok U _ _ _ _).mpr ⟨?_, by rw [← hdata]; exact htake⟩
    rw [Bytes.length_eq] at hact ⊢
    exact active hs (Bytes.length_eq _) hlen hfits hact
  | cStr n =>
    show proveCStr b'.toList = .ok v
    rw [← hb]
    exact hv
  | u16Str w e n =>
    obtain ⟨hlen, hdata⟩ := members_get_portable h (unitData_portable h n) hb
    have hunits := nativeUnits_portable hs.2 ((@dataPlace T w (@unitData T n)).get b).toList
    obtain ⟨hact, htake⟩ := (@proveU16Str_eq_ok T _ _ _ _).mp hv
    refine (@proveU16Str_eq_ok U _ _ _ _).mpr ⟨?_, by rw [← hdata, ← hunits]; exact htake⟩
    rw [@length_nativeUnits T, Bytes.length_eq] at hact
    rw [@length_nativeUnits U, Bytes.length_eq]
    exact active hs.1 (Bytes.length_eq _) hlen ((Nat.mul_div_cancel n two_pos).le.trans hfits) hact
  | u16CStr n =>
    show @proveU16CStr (@nativeUnits U b'.toList) = .ok v
    rw [← hb, ← nativeUnits_portable hs]
    exact hv

end

/-- The capacity of a string is part of its wire. -/
theorem capacity_le_size [Target] (s : StringIr) : s.capacity ≤ s.wire.size := by
  cases s with
  | str w e n => exact (Nat.le_add_left _ _).trans (dataPlace w (byteData n)).bound
  | cStr n => exact le_rfl
  | u16Str w e n =>
    have hdata : n * 2 ≤ _ := (Nat.le_add_left _ _).trans (dataPlace w (unitData n)).bound
    exact (Nat.le_mul_of_pos_right n two_pos).trans hdata
  | u16CStr n => exact Nat.le_mul_of_pos_right n two_pos

end StringIr

theorem EnumIr.load_portable {ir : EnumIr} (h : ir.endian.Portable T U ir.repr.bytes)
    {b b' : Bytes ir.repr.bytes} (hb : b.toList = b'.toList) :
    @EnumIr.load T ir b = @EnumIr.load U ir b' := by
  unfold load WireInt.raw
  rw [← hb, h.decode b.length_eq]

namespace Category

theorem loadTag_portable {c : Category} (hc : c.Portable T U) {b : Bytes (@wire T c).size}
    {b' : Bytes (@wire U c).size} (hb : b.toList = b'.toList) :
    @loadTag T c b = @loadTag U c b' := by
  cases c with
  | tagSibling ir => exact congrArg (Option.map Fin.val) (EnumIr.load_portable hc hb)
  | _ => rfl

theorem tagAt_portable (h : T.AlignsAs U) {ir : StructIr} {fields : Fin ir.arity → Category}
    (hc : (struct ir fields).Portable T U) {b : Bytes (@wire T (struct ir fields)).size}
    {b' : Bytes (@wire U (struct ir fields)).size} (hb : b.toList = b'.toList) (i : Fin ir.arity) :
    @tagAt T ir fields b i = @tagAt U ir fields b' i := by
  have hload (t : Fin ir.arity) := loadTag_portable (hc t) (field_portable h hb t)
  unfold tagAt
  simp only [hload]

/-- The same bytes hold the same value on both machines. -/
theorem represents_portable (h : T.AlignsAs U) (c : Category) (hc : c.Portable T U)
    (hfits : (@wire U c).size ≤ @isizeMax U) {tag : ℕ} {b : Bytes (@wire T c).size}
    {b' : Bytes (@wire U c).size} (hb : b.toList = b'.toList) {v : c.Logical}
    (hv : @Represents T c tag b v) : @Represents U c tag b' v := by
  induction c generalizing tag with
  | primitive p e =>
    have hdecode := WireEndian.Portable.decode hc b.length_eq
    show BitVec.ofNat _ ((@WireEndian.order U e).decode b'.toList) = v
    rw [← hb, ← hdecode]
    exact hv
  | bool | fixedBytes =>
    obtain rfl : b = b' := Bytes.ext hb
    exact hv
  | string s =>
    have hmax : s.capacity ≤ @usizeMax U :=
      ((@StringIr.capacity_le_size U s).trans hfits).trans (@isizeMax_le_usizeMax U)
    exact StringIr.decode_portable h hc hb hmax hv
  | scalarEnum ir | tagSibling ir => exact (EnumIr.load_portable hc hb).symm.trans hv
  | struct ir fields ih =>
    intro i
    obtain ⟨tag, htag, hfield⟩ := hv i
    have hpart : (@wire U (fields i)).size ≤ @isizeMax U :=
      ((Nat.le_add_left _ _).trans (@fieldPlace U ir fields i).bound).trans hfits
    exact ⟨tag, (tagAt_portable h hc hb i).symm.trans htag,
      ih i (hc i) hpart (field_portable h hb i) hfield⟩
  | tagged ir payload ih =>
    have hpart : (@wire U (payload v.1)).size ≤ @isizeMax U :=
      ((Nat.le_add_left _ _).trans (@payloadPlace U ir payload v.1).bound).trans hfits
    exact ⟨hv.1, ih v.1 (hc v.1) hpart (payload_portable h hb v.1) hv.2⟩
  | unit => trivial
  | array element n ih =>
    intro j
    have hpart : (@wire U element).size ≤ @isizeMax U :=
      ((Nat.le_add_left _ _).trans (@elementPlace U element n j).bound).trans hfits
    exact ih hc hpart (element_portable h hb j) (hv j)
  | optional align inner ih =>
    have hpart : (@wire U inner).size ≤ @isizeMax U :=
      ((Nat.le_add_left _ _).trans (@presentPlace U align inner).bound).trans hfits
    cases v with
    | none => exact (Bytes.isZero_congr hb).mp hv
    | some v =>
      exact ⟨mt (Bytes.isZero_congr hb).mpr hv.1, ih hc hpart (present_portable h hb) hv.2⟩

/-- The same bytes have the same faults on both machines. -/
theorem faults_portable (h : T.AlignsAs U) (c : Category) (hc : c.Portable T U) {tag : ℕ}
    {b : Bytes (@wire T c).size} {b' : Bytes (@wire U c).size} (hb : b.toList = b'.toList) :
    @faults T c tag b = @faults U c tag b' := by
  induction c generalizing tag with
  | primitive | fixedBytes | unit => rfl
  | bool =>
    obtain rfl : b = b' := Bytes.ext hb
    rfl
  | string s =>
    rw [@faults.eq_5 T, @faults.eq_5 U, StringIr.faultKind_portable h hc hb]
  | scalarEnum ir | tagSibling ir =>
    have hraw := WireEndian.Portable.decode hc b.length_eq
    unfold faults WireInt.raw
    rw [← hb, hraw]
  | struct ir fields ih =>
    have hfield (i : Fin ir.arity) (tag : ℕ) := @ih i (hc i) tag _ _ (field_portable h hb i)
    have hload (t : Fin ir.arity) := loadTag_portable (hc t) (field_portable h hb t)
    unfold faults
    congr 1
    funext i
    unfold fieldFaults
    simp only [hload, hfield]
  | tagged ir payload ih =>
    have hpayload (k : Fin ir.arity) := @ih k (hc k) 0 _ _ (payload_portable h hb k)
    unfold faults
    simp only [hpayload]
  | array element n ih =>
    have helement (j : Fin n) := @ih hc 0 _ _ (element_portable h hb j)
    unfold faults
    simp only [helement]
  | optional align inner ih =>
    have hinner := @ih hc 0 _ _ (present_portable h hb)
    exact if_congr (Bytes.isZero_congr hb) rfl hinner

end Category

end

end ZeroSchema
