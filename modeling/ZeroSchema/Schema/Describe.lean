import ZeroSchema.Schema.Emitted

/-! Where the metadata states the right sizes, its decoder yields exactly the images of the
values that the bytes represent. -/
namespace ZeroSchema
open Storage Control

section Leaf
variable [Target] {s : List UInt8}

theorem decodePrimitive_realizes {p : Primitive} {e : WireEndian} {b : Bytes p.width.bytes}
    (h : span s 0 p.width.bytes = some b.toList) :
    Realizes (decodePrimitive p e s) (fun v => p.get e b = v) (Category.primitive p e).datum := by
  have hlt := Endian.decode_lt e.order b.toList
  rw [b.length_eq] at hlt
  have hvalue : (p.get e b).toNat = e.order.decode b.toList := by
    rw [Primitive.get, BitVec.toNat_ofNat, Nat.pow_mul]
    exact Nat.mod_eq_of_lt hlt
  apply Realizes.of_eq (some (p.get e b))
  · intro v
    exact (Option.some_inj).symm
  · unfold decodePrimitive
    rw [h]
    show some (Datum.number _) = some (Datum.number _)
    rw [hvalue]

omit [Target] in
theorem decodeBool_realizes {b : Bytes 1} (h : span s 0 1 = some b.toList) :
    Realizes (decodeBool s) (fun v => BoolWire.decode (BoolWire.raw b) = some v)
      Category.bool.datum := by
  have hhead : b.toList.head? = some (BoolWire.raw b) := by
    obtain ⟨l, hl⟩ := b
    obtain ⟨x, rfl⟩ := List.length_eq_one_iff.mp hl
    rfl
  apply Realizes.of_eq (BoolWire.decode (BoolWire.raw b))
  · intro v
    exact Iff.rfl
  · unfold decodeBool
    rw [h]
    show (b.toList.head? >>= _) = _
    rw [hhead]
    rfl

/-- A scalar enum is the declared value that its raw number is. -/
theorem rawValue_enumLayout {ir : EnumIr} {b : Bytes ir.repr.bytes}
    (h : span s 0 ir.repr.bytes = some b.toList) :
    ir.layout.rawValue s = (ir.load b).map ir.toRaw := by
  have hraw : ir.layout.rawValue s =
      if WireInt.raw ir.endian b.toList ∈ ir.discriminants then
        some (WireInt.raw ir.endian b.toList) else none := by
    show (span s 0 ir.repr.bytes >>= _) = _
    rw [h]
    rfl
  rw [hraw]
  cases hload : ir.load b with
  | none =>
    have hmem : WireInt.raw ir.endian b.toList ∉ ir.discriminants := by
      rw [← EnumIr.isSome_load, hload]
      exact Bool.false_ne_true
    rw [if_neg hmem]
    rfl
  | some v =>
    have hmem : WireInt.raw ir.endian b.toList ∈ ir.discriminants := by
      rw [← EnumIr.isSome_load, hload]
      rfl
    rw [if_pos hmem, ← EnumIr.fromRaw_eq_some.mp hload]
    rfl

theorem decodeEnum_realizes {ir : EnumIr} {b : Bytes ir.repr.bytes}
    (h : span s 0 ir.repr.bytes = some b.toList) :
    Realizes ((ir.layout.rawValue s).map Datum.enumerator) (fun v => ir.load b = some v)
      (Category.scalarEnum ir).datum := by
  apply Realizes.of_eq (ir.load b)
  · intro v
    exact Iff.rfl
  · rw [rawValue_enumLayout h, Option.map_map]
    rfl

section Strings
variable {e : WireEndian} {length data : List UInt8}

theorem toOption_activeLength {capacity : ℕ} (h : capacity ≤ usizeMax) :
    (activeLength e length capacity).toOption =
      if WireInt.raw e length ≤ capacity then some (WireInt.raw e length) else none := by
  unfold activeLength WireInt.load
  by_cases hmax : WireInt.raw e length ≤ usizeMax
  · rw [if_pos hmax]
    by_cases hcap : WireInt.raw e length ≤ capacity
    · rw [if_pos hcap]
      simp only [if_neg (not_lt.mpr hcap)]
      rfl
    · rw [if_neg hcap]
      simp only [if_pos (not_le.mp hcap)]
      rfl
  · rw [if_neg hmax, if_neg (by omega)]
    rfl

/-- What reads on after the stored length does so when the length is in the capacity. -/
theorem toOption_activeLength_bind {α : Type} {capacity : ℕ} (h : capacity ≤ usizeMax)
    (read : ℕ → Except StringProofError α) :
    (activeLength e length capacity >>= read).toOption =
      if WireInt.raw e length ≤ capacity then (read (WireInt.raw e length)).toOption
      else none := by
  have hactive : (activeLength e length capacity).toOption = _ := toOption_activeLength h
  cases hlen : activeLength e length capacity with
  | error x =>
    rw [hlen] at hactive
    split_ifs at hactive with hcap
    · cases hactive
    · rw [if_neg hcap]
      rfl
  | ok n =>
    rw [hlen] at hactive
    split_ifs at hactive with hcap
    · obtain rfl := Option.some.inj hactive
      rw [if_pos hcap]
      rfl
    · cases hactive

theorem toOption_proveStr (h : data.length ≤ usizeMax) :
    (proveStr e length data).toOption =
      if WireInt.raw e length ≤ data.length then
        String.fromUTF8? ⟨(data.take (WireInt.raw e length)).toArray⟩ else none := by
  unfold proveStr
  rw [toOption_activeLength_bind h]
  congr 1
  cases String.fromUTF8? ⟨(data.take (WireInt.raw e length)).toArray⟩ with
  | none => rfl
  | some value => rfl

theorem toOption_proveU16Str {units : List UInt16} (h : units.length ≤ usizeMax) :
    (proveU16Str e length units).toOption =
      if WireInt.raw e length ≤ units.length then some (units.take (WireInt.raw e length))
      else none := by
  unfold proveU16Str
  rw [toOption_activeLength_bind h]
  rfl

omit [Target] in
theorem toOption_untilNul {α : Type} [OfNat α 0] [DecidableEq α] {β : Type} (units : List α)
    (f : List α → β) :
    (Terminated.untilNul units).toOption.map (fun v => f v.units) =
      if 0 ∈ units then some (f (units.takeWhile (· ≠ 0))) else none := by
  unfold Terminated.untilNul
  split_ifs with h <;> rfl

end Strings

theorem StringIr.lenPlace_offset (w : WireInt) (data : Layout) :
    (StringIr.lenPlace w data).offset = 0 := by
  have hpos := Layout.align_pos (StringIr.members w data 0)
  show (0 + Layout.align _ - 1) / Layout.align _ * Layout.align _ = 0
  rw [Nat.div_eq_of_lt (by omega), Nat.zero_mul]

/-- The prefix is at the start and the data where the descriptor says. -/
theorem span_prefixed {w : WireInt} {data : Layout}
    {b : Bytes (Layout.record (StringIr.members w data)).size}
    (h : span s 0 (Layout.record (StringIr.members w data)).size = some b.toList) :
    span s 0 w.bytes = some ((StringIr.lenPlace w data).get b).toList ∧
    span s (StringIr.dataPlace w data).offset data.size =
      some ((StringIr.dataPlace w data).get b).toList := by
  constructor
  · have hspan := span_cell (StringIr.lenPlace w data).toCell h
    rwa [StringIr.lenPlace_offset] at hspan
  · exact span_cell (StringIr.dataPlace w data).toCell h

theorem decodeString_eq {ir : StringIr} {input : Input ir.wire}
    (h : span s 0 ir.wire.size = some input.bytes.toList) :
    ir.descriptor.decode s = (ir.decode input.bytes).toOption.map ir.datum := by
  cases ir with
  | str w e n =>
    obtain ⟨hlen, hdata⟩ := span_prefixed h
    have hsize := ((StringIr.dataPlace w (StringIr.byteData n)).get input.bytes).length_eq
    have hmax : n ≤ usizeMax := input.le_usizeMax (StringIr.dataPlace w (StringIr.byteData n)).toCell
    unfold StringIr.decode
    rw [toOption_proveStr (by rw [hsize]; exact hmax), hsize]
    unfold StringDescriptor.decode StringIr.descriptor LengthDescriptor.decode
    simp only [hlen, hdata]
    show (if WireInt.raw e _ ≤ n then _ else none) = _
    split_ifs with hcap
    · rfl
    · rfl
  | cStr n =>
    unfold StringDescriptor.decode StringIr.descriptor
    simp only [h]
    exact (toOption_untilNul input.bytes.toList Datum.bytes).symm
  | u16Str w e n =>
    obtain ⟨hlen, hdata⟩ := span_prefixed h
    have hsize : (nativeUnits ((StringIr.dataPlace w (StringIr.unitData n)).get
        input.bytes).toList).length = n := by
      rw [length_nativeUnits, Bytes.length_eq]
      exact Nat.mul_div_cancel n two_pos
    have hmax : n ≤ usizeMax := by
      have hle := input.le_usizeMax (StringIr.dataPlace w (StringIr.unitData n)).toCell
      change n * 2 ≤ usizeMax at hle
      omega
    unfold StringIr.decode
    rw [toOption_proveU16Str (by rw [hsize]; exact hmax), hsize]
    unfold StringDescriptor.decode StringIr.descriptor LengthDescriptor.decode
    simp only [hlen, hdata]
    show (if WireInt.raw e _ ≤ n then _ else none) = _
    split_ifs with hcap
    · rfl
    · rfl
  | u16CStr n =>
    unfold StringDescriptor.decode StringIr.descriptor
    simp only [h]
    exact (toOption_untilNul (nativeUnits input.bytes.toList) Datum.units).symm

theorem decodeString_realizes {ir : StringIr} {input : Input ir.wire}
    (h : span s 0 ir.wire.size = some input.bytes.toList) :
    Realizes (ir.descriptor.decode s) (fun v => ir.decode input.bytes = .ok v)
      (Category.string ir).datum := by
  apply Realizes.of_eq (ir.decode input.bytes).toOption
  · intro v
    cases ir.decode input.bytes <;> simp [Except.toOption]
  · exact decodeString_eq h

open Category in
/-- The decoder of a leaf yields the image of what its bytes represent. -/
theorem leaf_realizes {c : Category} {g : List UInt8 → Option Datum} (hleaf : c.leafDecode = some g)
    {input : Input c.wire} (tag : ℕ) (h : span s 0 c.wire.size = some input.bytes.toList) :
    Realizes (g s) (c.Represents tag input.bytes) c.datum := by
  cases c with
  | primitive p e =>
    obtain rfl := Option.some.inj hleaf
    exact decodePrimitive_realizes h
  | bool =>
    obtain rfl := Option.some.inj hleaf
    exact decodeBool_realizes h
  | string ir =>
    obtain rfl := Option.some.inj hleaf
    exact decodeString_realizes h
  | fixedBytes n =>
    obtain rfl := Option.some.inj hleaf
    apply Realizes.of_eq (some input.bytes)
    · intro v
      exact (Option.some_inj).symm
    · have hspan : span s 0 n = some input.bytes.toList := h
      show (span s 0 n).map _ = _
      rw [hspan]
      rfl
  | scalarEnum ir =>
    obtain rfl := Option.some.inj hleaf
    exact decodeEnum_realizes h
  | tagSibling ir =>
    obtain rfl := Option.some.inj hleaf
    exact decodeEnum_realizes h
  | struct | tagged | unit | array | optional => cases hleaf

end Leaf

namespace Category
variable [Target]

/-- The condition on the spellings: that of an optional's inner type denotes, at the declaration,
a wire that fills the same storage. Only variants that their tag selects matter. -/
def SameStorage : (c : Category) → c.Rebased → Prop
  | struct ir fields, r => ∀ i : Fin ir.arity, SameStorage (fields i) (r i)
  | tagged ir payload, r => ∀ k, ir.select (ir.tag k) = some k → SameStorage (payload k) (r k)
  | array element _, r => SameStorage element r
  | optional align inner, r =>
    (alignedWire align r.1).size = (alignedWire align inner.wire).size ∧ SameStorage inner r.2
  | primitive _ _, _ | bool, _ | string _, _ | fixedBytes _, _ | scalarEnum _, _ | tagSibling _, _
  | unit, _ => True

/-- The described storage of a field that is not aligned otherwise has the size of its wire. -/
def SameSize (c : Category) (r : c.Rebased) : Prop :=
  (alignedWire (c.alignOption none) (c.outerWire r)).size = c.wire.size

theorem SameStorage.sameSize {c : Category} {r : c.Rebased} (h : c.SameStorage r) :
    c.SameSize r := by
  cases c with
  | optional align inner => exact h.1
  | _ => rfl

theorem sameSize_of_isOptional {c : Category} {r : c.Rebased} (h : c.isOptional = false) :
    c.SameSize r := by
  cases c with
  | optional align inner => cases h
  | _ => rfl

theorem size_outerWire {c : Category} {r : c.Rebased} {align : Option Alignment}
    (hsize : c.SameSize r) (halign : c.isOptional = true → align = none) :
    (alignedWire (c.alignOption align) (c.outerWire r)).size = (alignedWire align c.wire).size := by
  cases c with
  | optional inner =>
    obtain rfl := halign rfl
    exact hsize
  | _ => rfl

/-- The record around a payload stores this tag where the payload's link says. -/
def TagLink (c : Category) (link : Option ExternalTagDescriptor) (record : List UInt8)
    (tag : ℕ) : Prop :=
  ∀ e, c.payloadEnum = some e → ∃ (t : ExternalTagDescriptor) (v : e.Value),
    link = some t ∧ t.decode record = some (e.toRaw v) ∧ (v : ℕ) = tag

theorem tagLink_of_payloadEnum {c : Category} (h : c.payloadEnum = none)
    {link : Option ExternalTagDescriptor} {record : List UInt8} {tag : ℕ} :
    c.TagLink link record tag := by
  intro e he
  rw [h] at he
  cases he

section Record
variable {ir : StructIr} {fields : Fin ir.arity → Category} {r : (struct ir fields).Rebased}

/-- The storage of a field, with its alignment. -/
def storagePlace (ir : StructIr) (fields : Fin ir.arity → Category) (i : Fin ir.arity) :
    Place (struct ir fields).wire (alignedWire (ir.fieldAlign i) (fields i).wire) :=
  (valuePlace ir.align _).comp (Place.field (fun i => alignedWire (ir.fieldAlign i) (fields i).wire) i)

theorem storagePlace_offset (i : Fin ir.arity) :
    (storagePlace ir fields i).offset = compilerFieldOffset ir fields i := rfl

theorem get_storagePlace (i : Fin ir.arity) (b : Bytes (struct ir fields).wire.size) :
    (valuePlace (ir.fieldAlign i) (fields i).wire).get ((storagePlace ir fields i).get b) =
      (fieldPlace ir fields i).get b :=
  (Cell.get_comp _ _ b).symm

omit [Target] in
theorem get_valuePlace_none {align : Option Alignment} {L : Layout} (h : align = none)
    (b : Bytes (alignedWire align L).size) : ((valuePlace align L).get b).toList = b.toList := by
  subst h
  exact congrArg Bytes.toList (Place.get_whole b)

/-- A field that is described with its storage is decoded from its storage. -/
theorem decode_fieldDescriptor {i : Fin ir.arity}
    (hsize : (outerWireFieldType ir fields r i).size =
      (alignedWire (ir.fieldAlign i) (fields i).wire).size)
    (kind : FieldKind) (b : Bytes (struct ir fields).wire.size) :
    (fieldDescriptor ir fields r i kind).decode b.toList =
      decodeOptional (fields i).isOptional ((storagePlace ir fields i).get b).toList
        (kind.decode b.toList ((storagePlace ir fields i).get b).toList) := by
  have hspan := span_cell (storagePlace ir fields i).toCell (span_whole b)
  show ((span b.toList (compilerFieldOffset ir fields i)
    (outerWireFieldType ir fields r i).size).bind _) = _
  rw [hsize, ← storagePlace_offset, hspan, Option.bind_some]

theorem span_storage (i : Fin ir.arity) (b : Bytes (struct ir fields).wire.size) :
    span ((storagePlace ir fields i).get b).toList 0 (fields i).wire.size =
      some ((fieldPlace ir fields i).get b).toList := by
  have hspan := span_cell (valuePlace (ir.fieldAlign i) (fields i).wire).toCell
    (span_whole ((storagePlace ir fields i).get b))
  rwa [valuePlace_offset, get_storagePlace] at hspan

/-- The alignment of an optional is part of its storage. -/
theorem storage_optional (hacc : (struct ir fields).Accepted) {i : Fin ir.arity}
    (hopt : (fields i).isOptional = true) (b : Bytes (struct ir fields).wire.size) :
    ((storagePlace ir fields i).get b).toList = ((fieldPlace ir fields i).get b).toList := by
  rw [← get_storagePlace]
  exact (get_valuePlace_none ((hacc.1 i).2.2 hopt) _).symm

theorem size_outerWireFieldType (hacc : (struct ir fields).Accepted) {i : Fin ir.arity}
    (hsize : (fields i).SameSize (r i)) : (outerWireFieldType ir fields r i).size =
      (alignedWire (ir.fieldAlign i) (fields i).wire).size := by
  unfold outerWireFieldType
  exact size_outerWire hsize (hacc.1 i).2.2

theorem rawValue_tag {c : Category} {e : EnumIr} (hc : c.tagEnum = some e)
    {b : Bytes c.wire.size} {tag : ℕ} (htag : c.loadTag b = some tag) {name : String} {offset : ℕ}
    {record : List UInt8} (h : span record offset c.wire.size = some b.toList) :
    ∃ v : e.Value, (ExternalTagDescriptor.mk name offset e.layout).decode record =
      some (e.toRaw v) ∧ (v : ℕ) = tag := by
  cases c with
  | tagSibling ir =>
    obtain rfl := Option.some.inj hc
    obtain ⟨v, hv, hval⟩ := Option.map_eq_some_iff.mp htag
    have hraw := rawValue_enumLayout (span_whole b)
    rw [hv] at hraw
    refine ⟨v, ?_, hval⟩
    show (span record offset ir.repr.layout.size >>= _) = _
    rw [h]
    exact hraw
  | _ => cases hc

/-- A stored tag is what the metadata of its payload reads. -/
theorem tagLink_field (hlinked : ir.Linked fields) {b : Bytes (struct ir fields).wire.size}
    {i : Fin ir.arity} {tag : ℕ} (htag : tagAt ir fields b i = some tag) :
    (fields i).TagLink (externalTag ir fields i) b.toList tag := by
  intro e he
  obtain ⟨t, ht⟩ := Option.isSome_iff_exists.mp (hlinked.linked i (by rw [he]; rfl))
  have henum : (fields t).tagEnum = some e := (hlinked.link i t ht).2.trans he
  have hload : (fields t).loadTag ((fieldPlace ir fields t).get b) = some tag := by
    rwa [tagAt_of_link ht] at htag
  have hspan := span_cell (fieldPlace ir fields t).toCell (span_whole b)
  obtain ⟨v, hv, hval⟩ := rawValue_tag henum hload hspan
  refine ⟨_, v, ?_, hv, hval⟩
  unfold externalTag
  rw [ht]
  show ((fields t).tagEnum >>= _) = _
  rw [henum]
  rfl

theorem decode_recordLayout {kinds : Fin ir.arity → FieldKind} {bytes x : List UInt8}
    (h : span bytes 0 (struct ir fields).wire.size = some x) :
    (recordLayout ir fields r kinds).decode bytes =
      if Sequential fun i => fieldDescriptor ir fields r i (kinds i) then
        (collect fun i => (fieldDescriptor ir fields r i (kinds i)).decode x).map
          (.record ir.fieldName)
      else none := by
  show (span bytes 0 (struct ir fields).wire.size >>= _) = _
  rw [h]
  rfl

/-- Rightly described fields follow one another. -/
theorem sequential_fields (hacc : (struct ir fields).Accepted)
    (hsame : (struct ir fields).SameStorage r) (kinds : Fin ir.arity → FieldKind) :
    Sequential fun i => fieldDescriptor ir fields r i (kinds i) := by
  intro i j hij
  have hsize := size_outerWireFieldType hacc (hsame i).sameSize
  have hlt : Layout.fieldOffset (fun i => alignedWire (ir.fieldAlign i) (fields i).wire) i +
      (alignedWire (ir.fieldAlign i) (fields i).wire).size ≤
      Layout.fieldOffset (fun i => alignedWire (ir.fieldAlign i) (fields i).wire) j :=
    Layout.fieldOffset_lt hij
  show compilerFieldOffset ir fields i + (outerWireFieldType ir fields r i).size ≤
    compilerFieldOffset ir fields j
  unfold compilerFieldOffset
  rw [hsize]
  omega

/-- The tags are there when the siblings are valid. -/
theorem exists_tagAt (hlinked : ir.Linked fields) {b : Bytes (struct ir fields).wire.size}
    {i : Fin ir.arity} (h : ∀ t, ir.tagField t = none →
      (fields t).Valid 0 ((fieldPlace ir fields t).get b)) :
    ∃ tag, tagAt ir fields b i = some tag := by
  cases ht : ir.tagField i with
  | none => exact ⟨0, tagAt_of_none ht b⟩
  | some t =>
    obtain ⟨e, he⟩ := Option.isSome_iff_exists.mp (hlinked.tagEnum_isSome ht)
    obtain ⟨v, hv⟩ := exists_loadTag he (h t (hlinked.tagField_sibling (by rw [he]; rfl)))
    refine ⟨v, ?_⟩
    rwa [tagAt_of_link ht]

end Record

theorem decode_payloadLayout {ir : TaggedIr} {payload : Fin ir.arity → Category}
    {layouts : Fin ir.arity → LayoutDescriptor} {bytes x : List UInt8} {v : ir.tagType.Value}
    (h : span bytes 0 (tagged ir payload).wire.size = some x) :
    (payloadLayout ir payload layouts).decodePayload (ir.tagType.toRaw v) bytes =
      (ir.select v).bind fun k =>
        ((variantDescriptor ir payload k (layouts k)).decode x).map
          (.variant k (ir.variantName k)) := by
  have hselect : ((List.finRange ir.arity).find? fun k =>
      (variantDescriptor ir payload k (layouts k)).rawTag = ir.tagType.toRaw v) = ir.select v := by
    unfold TaggedIr.select
    congr 1
    funext k
    rw [decide_eq_decide]
    show ir.tagType.toRaw (ir.tag k) = ir.tagType.toRaw v ↔ _
    rw [EnumIr.toRaw_injective.eq_iff, Fin.ext_iff]
  show (span bytes 0 (tagged ir payload).wire.size >>= _) = _
  rw [h, ← hselect]
  rfl

theorem realizes_unit {c : Category} (hc : c = unit) {name : String} {b : Bytes c.wire.size} :
    Realizes ((unitLayout name).decode b.toList) (c.Represents 0 b) c.datum := by
  subst hc
  rw [decode_unitLayout (span_whole b)]
  apply Realizes.of_eq (some ())
  · intro v
    exact ⟨fun _ => rfl, fun _ => trivial⟩
  · rfl

omit [Target] in
/-- Only a field is optional. -/
theorem isOptional_eq_false {c : Category}
    (h : c.isPath = true ∨ c.isElement = true ∨ c.isOptionalInner = true) :
    c.isOptional = false := by
  cases c with
  | optional align inner => simp [isPath, isElement, isOptionalInner] at h
  | _ => rfl

/-- Bytes that the metadata describes rightly are decoded to the image of their value. -/
theorem emitted_realizes (c : Category) (hacc : c.Accepted) {r : c.Rebased}
    (hsame : c.SameStorage r) {link : Option ExternalTagDescriptor}
    {f : List UInt8 → List UInt8 → Option Datum} (hf : c.Emitted r link f) {tag : ℕ}
    (record bytes : List UInt8) (input : Input c.wire) (hlink : c.TagLink link record tag)
    (hspan : span bytes 0 c.wire.size = some input.bytes.toList)
    (hexact : c.isOptional = true → bytes = input.bytes.toList) :
    Realizes (f record bytes) (c.Represents tag input.bytes) c.datum := by
  induction c generalizing link f tag record bytes with
  | primitive | bool | string | fixedBytes | scalarEnum | tagSibling =>
    rw [emitted_leaf rfl hf]
    exact leaf_realizes rfl tag hspan
  | struct ir fields ih =>
    obtain ⟨-, kinds, hkinds, rfl⟩ := emitted_struct hf
    have hfield (i : Fin ir.arity) (tag : ℕ) (htag : tagAt ir fields input.bytes i = some tag) :
        Realizes ((fieldDescriptor ir fields r i (kinds i)).decode input.bytes.toList)
          ((fields i).Represents tag ((fieldPlace ir fields i).get input.bytes))
          (fields i).datum := by
      rw [decode_fieldDescriptor (size_outerWireFieldType hacc (hsame i).sameSize)]
      exact ih i (hacc.1 i).1 (hsame i) (emitted_field (hkinds i)) input.bytes.toList _
        (input.child (fieldPlace ir fields i)) (tagLink_field hacc.2.1 htag)
        (span_storage i input.bytes) fun hopt => storage_optional hacc hopt input.bytes
    show Realizes ((recordLayout ir fields r kinds).decode bytes) _ _
    rw [decode_recordLayout hspan, if_pos (sequential_fields hacc hsame kinds)]
    by_cases hall : ∀ i, ∃ tag, tagAt ir fields input.bytes i = some tag
    · choose tags htags using hall
      have hrecord := (Realizes.collect fun i => hfield i (tags i) (htags i)).map
        (Datum.record ir.fieldName)
      refine hrecord.congr fun v => forall_congr' fun i => ?_
      constructor
      · rintro ⟨tag, htag, hv⟩
        obtain rfl := Option.some.inj ((htags i).symm.trans htag)
        exact hv
      · intro hv
        exact ⟨tags i, htags i, hv⟩
    · obtain ⟨i, hi⟩ := not_forall.mp hall
      apply Realizes.of_none
      · rw [Option.map_eq_none_iff]
        cases hcollect : collect fun i =>
            (fieldDescriptor ir fields r i (kinds i)).decode input.bytes.toList with
        | none => rfl
        | some y =>
          have hdecoded := collect_eq_some.mp hcollect
          have hvalid (t : Fin ir.arity) (ht : ir.tagField t = none) :
              (fields t).Valid 0 ((fieldPlace ir fields t).get input.bytes) := by
            have h0 : tagAt ir fields input.bytes t = some 0 := tagAt_of_none ht _
            obtain ⟨v, hv, -⟩ := (hfield t 0 h0 (y t)).mp (hdecoded t)
            exact ((fields t).valid_iff 0 (input.child (fieldPlace ir fields t))).mpr ⟨v, hv⟩
          exact absurd (exists_tagAt hacc.2.1 hvalid) hi
      · intro v hv
        obtain ⟨tag, htag, -⟩ := hv i
        exact hi ⟨tag, htag⟩
  | tagged ir payload ih =>
    obtain ⟨t, layouts, rfl, hlayouts, rfl⟩ := emitted_tagged hf
    obtain ⟨t', v, ht', hdecode, rfl⟩ := hlink ir.tagType rfl
    obtain rfl := Option.some.inj ht'
    have hvariant (k : Fin ir.arity) (hk : ir.select (ir.tag k) = some k) :
        Realizes ((variantDescriptor ir payload k (layouts k)).decode input.bytes.toList)
          ((payload k).Represents 0 ((payloadPlace ir payload k).get input.bytes))
          (payload k).datum := by
      have hmember := span_cell (payloadPlace ir payload k).toCell (span_whole input.bytes)
      change span input.bytes.toList 0 (payload k).wire.size = _ at hmember
      show Realizes ((span input.bytes.toList 0 (payload k).wire.size).bind _) _ _
      rw [hmember, Option.bind_some]
      rcases variantLayout_cases (hacc.1 k).2 (hlayouts k) with ⟨hunit, hd⟩ | ⟨hpath, hd⟩
      · rw [hd]
        exact realizes_unit hunit
      · exact ih k (hacc.1 k).1 (hsame k hk) (emitted_layout hpath hd) [] _
          (input.child (payloadPlace ir payload k))
          (tagLink_of_payloadEnum (payloadEnum_eq_none (Or.inl (hacc.1 k).2)))
          (span_whole _) fun _ => rfl
    show Realizes ((t.decode record).bind fun raw => _) _ _
    rw [hdecode, Option.bind_some, decode_payloadLayout hspan]
    cases hsel : ir.select v with
    | none =>
      apply Realizes.of_none rfl
      intro w hw
      rw [hw.1] at hsel
      cases hsel
    | some k =>
      have hk : ir.select (ir.tag k) = some k := by
        rwa [TaggedIr.tag_of_select hsel]
      intro y
      rw [Option.bind_some, Option.map_eq_some_iff]
      constructor
      · rintro ⟨d, hd, rfl⟩
        obtain ⟨w, hw, rfl⟩ := (hvariant k hk d).mp hd
        exact ⟨⟨k, w⟩, ⟨hsel, hw⟩, rfl⟩
      · rintro ⟨⟨l, w⟩, ⟨hl, hw⟩, rfl⟩
        obtain rfl : k = l := Option.some.inj (hsel.symm.trans hl)
        exact ⟨_, (hvariant k hk).eq_some hw, rfl⟩
  | unit => exact absurd hf emitted_unit
  | array element n ih =>
    obtain ⟨g, hg, rfl⟩ := emitted_array hf
    have helement (j : Fin n) : Realizes
        ((span bytes (j * element.wire.size) element.wire.size).bind g)
        (element.Represents 0 ((elementPlace element j).get input.bytes)) element.datum := by
      have hcell := span_cell (elementPlace element j).toCell hspan
      have hnone : element.payloadEnum = none := payloadEnum_eq_none (Or.inr (Or.inl hacc.2.1))
      change span bytes (j * element.wire.size) element.wire.size = _ at hcell
      rw [hcell, Option.bind_some]
      exact ih hacc.1 hsame hg [] _ (input.child (elementPlace element j))
        (tagLink_of_payloadEnum hnone) (span_whole _) fun _ => rfl
    exact (Realizes.collect helement).map Datum.array
  | optional align inner ih =>
    have hinner : inner.isOptional = false := isOptional_eq_false (Or.inr (Or.inr hacc.2.1))
    obtain ⟨g, hg, rfl⟩ := emitted_optional hinner hf
    obtain rfl := hexact rfl
    have hpresent := span_cell (presentPlace align inner).toCell (span_whole input.bytes)
    have hnone : inner.payloadEnum = none := payloadEnum_eq_none (Or.inr (Or.inr hacc.2.1))
    have hdatum : (optional align inner).datum =
        fun x => x.elim Datum.absent fun x => Datum.present (inner.datum x) := by
      funext x
      cases x <;> rfl
    have hrep (x : Option inner.Logical) : (optional align inner).Represents tag input.bytes x ↔
        x.elim input.bytes.IsZero fun x => ¬input.bytes.IsZero ∧
          inner.Represents 0 ((presentPlace align inner).get input.bytes) x := by
      cases x <;> rfl
    rw [hdatum]
    refine Realizes.congr (Realizes.option fun _ => ?_) hrep
    have hoffset : (presentPlace align inner).offset = 0 := valuePlace_offset align inner.wire
    rw [hoffset] at hpresent
    refine ih hacc.1 hsame.2 hg record _ (input.child (presentPlace align inner))
      (tagLink_of_payloadEnum hnone) hpresent ?_
    intro hopt
    rw [hinner] at hopt
    cases hopt

end Category

end ZeroSchema
