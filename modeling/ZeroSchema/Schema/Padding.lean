import ZeroSchema.Access.Layout
import ZeroSchema.Library.Tiling

/-! The padding that the metadata of a record lists. Together with the values of the fields it
partitions the record exactly when every field is described with the size of its value. -/
namespace ZeroSchema
open Storage Control Category

instance : Ranged ByteRange := ⟨ByteRange.start, ByteRange.stop⟩

/-- The padding is well formed and in increasing order, and every byte lies in exactly one range
of padding or of a value. -/
structure Partitions (padding values : List ByteRange) (size : ℕ) : Prop where
  ordered : ∀ r ∈ padding, r.start ≤ r.stop
  bounded : ∀ r ∈ padding, r.stop ≤ size
  increasing : padding.Pairwise fun r r' => r.stop ≤ r'.start
  exactlyOne : ∀ k < size, hits (padding ++ values) k = 1

namespace Category

/-- The wire of a field's value, without its alignment. -/
def valueWire [Target] : Category → Layout
  | optional _ inner => inner.wire
  | c => c.wire

end Category

section
variable [Target] (ir : StructIr) (fields : Fin ir.arity → Category)

/-- The bytes of a field's value. -/
def valueRange (i : Fin ir.arity) : ByteRange :=
  let start := compilerFieldOffset ir fields i +
    (valuePlace ((fields i).alignOption (ir.fieldAlign i)) (fields i).valueWire).offset
  ⟨start, start + (fields i).valueWire.size⟩

def valueRanges : List ByteRange := (List.finRange ir.arity).map (valueRange ir fields)

variable (rebased : (i : Fin ir.arity) → (fields i).Rebased)

/-- The bytes that the metadata takes a value to have. -/
def describedRange (i : Fin ir.arity) : ByteRange :=
  ⟨compilerFieldOffset ir fields i,
    compilerFieldOffset ir fields i + ((fields i).outerWire (rebased i)).size⟩

/-- The padding around an aligned value. -/
def localPadding (i : Fin ir.arity) : List ByteRange :=
  let offset := compilerFieldOffset ir fields i
  let size := (outerWireFieldType ir fields rebased i).size
  let base := (fields i).outerWire (rebased i)
  match (fields i).alignOption (ir.fieldAlign i) with
  | none => []
  | some a =>
    let valueOffset := (Place.raised base a.log).offset
    [⟨offset, offset + valueOffset⟩, ⟨offset + valueOffset + base.size, offset + size⟩]

/-- One field of the walk. -/
def paddingStep (acc : List ByteRange × ℕ) (i : Fin ir.arity) : List ByteRange × ℕ :=
  (acc.1 ++ ⟨acc.2, compilerFieldOffset ir fields i⟩ :: localPadding ir fields rebased i,
    compilerFieldOffset ir fields i + (outerWireFieldType ir fields rebased i).size)

theorem structPaddingRanges_eq : structPaddingRanges ir fields rebased =
    ((List.finRange ir.arity).foldl (paddingStep ir fields rebased) ([], 0)).1 ++
      [⟨((List.finRange ir.arity).foldl (paddingStep ir fields rebased) ([], 0)).2,
        (struct ir fields).wire.size⟩] := rfl

end

section
variable [Target] {ir : StructIr} {fields : Fin ir.arity → Category}
  {rebased : (i : Fin ir.arity) → (fields i).Rebased}

/-! ### The storage of the fields -/

omit [Target] in
theorem size_alignedWire {align : Option Alignment} {L M : Layout} (h : L.size = M.size) :
    (alignedWire align L).size = (alignedWire align M).size := by
  cases align with
  | none => exact h
  | some a =>
    have hle {L M : Layout} (h : L.size = M.size) :
        (L.raise a.log).size ≤ (M.raise a.log).size := by
      by_contra hlt
      have hshort := Layout.size_lt_of_raise (not_le.mp hlt)
      have hself := M.size_le_raise a.log
      omega
    exact le_antisymm (hle h) (hle h.symm)

omit [Target] in
theorem size_le_alignedWire (align : Option Alignment) (L : Layout) :
    L.size ≤ (alignedWire align L).size := by
  have hbound := (valuePlace align L).bound
  omega

theorem alignedWire_valueWire {c : Category} {align : Option Alignment}
    (h : c.isOptional = true → align = none) :
    alignedWire (c.alignOption align) c.valueWire = alignedWire align c.wire := by
  cases c with
  | optional a inner =>
    rw [h rfl]
    rfl
  | _ => rfl

theorem fieldStorage_lt (fields : Fin ir.arity → Category) {i j : Fin ir.arity} (h : i < j) :
    compilerFieldOffset ir fields i + (alignedWire (ir.fieldAlign i) (fields i).wire).size ≤
      compilerFieldOffset ir fields j := by
  let wires : Fin ir.arity → Layout := fun i => alignedWire (ir.fieldAlign i) (fields i).wire
  have hlt : Layout.fieldOffset wires i + (wires i).size ≤ Layout.fieldOffset wires j :=
    Layout.fieldOffset_lt h
  have hall := Nat.add_le_add_left hlt (valuePlace ir.align (Layout.record wires)).offset
  rwa [← Nat.add_assoc] at hall

theorem fieldStorage_bound (fields : Fin ir.arity → Category) (i : Fin ir.arity) :
    compilerFieldOffset ir fields i + (alignedWire (ir.fieldAlign i) (fields i).wire).size ≤
      (struct ir fields).wire.size := by
  rw [← storagePlace_offset]
  exact (storagePlace ir fields i).bound

/-! ### The walk over the fields -/

/-- What local padding there is, around a value at the start of its storage. -/
theorem localPadding_cases (rebased : (i : Fin ir.arity) → (fields i).Rebased)
    (i : Fin ir.arity) :
    (localPadding ir fields rebased i = [] ∧
      (outerWireFieldType ir fields rebased i).size = ((fields i).outerWire (rebased i)).size) ∨
    localPadding ir fields rebased i =
      [⟨compilerFieldOffset ir fields i, compilerFieldOffset ir fields i⟩,
        ⟨compilerFieldOffset ir fields i + ((fields i).outerWire (rebased i)).size,
          compilerFieldOffset ir fields i + (outerWireFieldType ir fields rebased i).size⟩] := by
  unfold localPadding outerWireFieldType
  cases (fields i).alignOption (ir.fieldAlign i) with
  | none => exact Or.inl ⟨rfl, rfl⟩
  | some a => exact Or.inr rfl

theorem describedSize_le (rebased : (i : Fin ir.arity) → (fields i).Rebased)
    (i : Fin ir.arity) : ((fields i).outerWire (rebased i)).size ≤
    (outerWireFieldType ir fields rebased i).size := size_le_alignedWire _ _

theorem localPadding_within {i : Fin ir.arity} {x : ByteRange}
    (hx : x ∈ localPadding ir fields rebased i) :
    compilerFieldOffset ir fields i ≤ x.start ∧ x.start ≤ x.stop ∧
      x.stop ≤ compilerFieldOffset ir fields i + (outerWireFieldType ir fields rebased i).size := by
  have hle := describedSize_le rebased i
  rcases localPadding_cases rebased i with ⟨hnone, -⟩ | hsome
  · rw [hnone] at hx
    cases hx
  · rw [hsome] at hx
    rcases List.mem_pair.mp hx with rfl | rfl
    · exact ⟨le_rfl, le_rfl, Nat.le_add_right _ _⟩
    · exact ⟨Nat.le_add_right _ _, Nat.add_le_add_left hle _, le_rfl⟩

theorem localPadding_increasing (rebased : (i : Fin ir.arity) → (fields i).Rebased)
    (i : Fin ir.arity) :
    (localPadding ir fields rebased i).Pairwise fun x y => x.stop ≤ y.start := by
  rcases localPadding_cases rebased i with ⟨hnone, -⟩ | hsome
  · rw [hnone]
    exact List.Pairwise.nil
  · rw [hsome]
    exact List.pairwise_pair.mpr (Nat.le_add_right _ _)

/-- A value and the padding around it tile the storage of the field. -/
theorem localPadding_tiles (rebased : (i : Fin ir.arity) → (fields i).Rebased)
    (i : Fin ir.arity) :
    Tiles (localPadding ir fields rebased i ++ [describedRange ir fields rebased i])
      (compilerFieldOffset ir fields i)
      (compilerFieldOffset ir fields i + (outerWireFieldType ir fields rebased i).size) := by
  have hle := describedSize_le rebased i
  rcases localPadding_cases rebased i with ⟨hnone, hsize⟩ | hsome
  · rw [hnone, hsize]
    exact tiles_singleton
  · rw [hsome]
    have hbefore : Tiles [(⟨compilerFieldOffset ir fields i, compilerFieldOffset ir fields i⟩ :
        ByteRange)] (compilerFieldOffset ir fields i) (compilerFieldOffset ir fields i) :=
      tiles_singleton
    have hvalue : Tiles [describedRange ir fields rebased i] (compilerFieldOffset ir fields i)
        (compilerFieldOffset ir fields i + ((fields i).outerWire (rebased i)).size) :=
      tiles_singleton
    have hafter : Tiles [(⟨compilerFieldOffset ir fields i + ((fields i).outerWire (rebased i)).size,
        compilerFieldOffset ir fields i + (outerWireFieldType ir fields rebased i).size⟩ :
        ByteRange)] (compilerFieldOffset ir fields i + ((fields i).outerWire (rebased i)).size)
        (compilerFieldOffset ir fields i + (outerWireFieldType ir fields rebased i).size) :=
      tiles_singleton
    have htail := hvalue.append hafter (Nat.le_add_right _ _) (Nat.add_le_add_left hle _)
    have hall := hbefore.append htail le_rfl (Nat.le_add_right _ _)
    exact hall.perm (List.Perm.cons _ (List.Perm.swap _ _ _))

variable (ir fields rebased)

/-- The described values of the first `m` fields. -/
def firstDescribed (m : ℕ) : List ByteRange :=
  ((List.finRange ir.arity).take m).map (describedRange ir fields rebased)

/-- What the walk has done after `m` fields, as long as no gap is negative. -/
structure Walked (m : ℕ) (acc : List ByteRange × ℕ) : Prop where
  tiles : Tiles (acc.1 ++ firstDescribed ir fields rebased m) 0 acc.2
  bounded : ∀ x ∈ acc.1, x.stop ≤ acc.2
  increasing : acc.1.Pairwise fun x y => x.stop ≤ y.start
  reached : ∀ i : Fin ir.arity, i < m →
    compilerFieldOffset ir fields i + ((fields i).outerWire (rebased i)).size ≤ acc.2
  apart : ∀ i j : Fin ir.arity, i < j → j < m →
    compilerFieldOffset ir fields i + ((fields i).outerWire (rebased i)).size ≤
      compilerFieldOffset ir fields j

variable {ir fields rebased}

theorem firstDescribed_succ (i : Fin ir.arity) : firstDescribed ir fields rebased (i + 1) =
    firstDescribed ir fields rebased i ++ [describedRange ir fields rebased i] := by
  have hlen : (i : ℕ) < (List.finRange ir.arity).length := by
    rw [List.length_finRange]
    exact i.isLt
  have hget : (List.finRange ir.arity)[(i : ℕ)] = i := by simp
  unfold firstDescribed
  rw [List.take_succ_eq_append_getElem hlen, List.map_append, hget]
  rfl

private theorem walked_zero : Walked ir fields rebased 0 ([], 0) := by
  constructor
  · exact tiles_nil
  · intro x hx
    cases hx
  · exact List.Pairwise.nil
  · intro i hi
    exact absurd hi (Nat.not_lt_zero _)
  · intro i j _ hj
    exact absurd hj (Nat.not_lt_zero _)

/-- One more field, behind a gap that is not negative. -/
theorem Walked.step {acc : List ByteRange × ℕ} {i : Fin ir.arity}
    (h : Walked ir fields rebased i acc) (hgap : acc.2 ≤ compilerFieldOffset ir fields i) :
    Walked ir fields rebased (i + 1) (paddingStep ir fields rebased acc i) := by
  have hle := describedSize_le rebased i
  constructor
  · have hbetween : Tiles [(⟨acc.2, compilerFieldOffset ir fields i⟩ : ByteRange)] acc.2
        (compilerFieldOffset ir fields i) := tiles_singleton
    have hfield := hbetween.append (localPadding_tiles rebased i) hgap
      (Nat.le_add_right _ _)
    have hall := h.tiles.append hfield (Nat.zero_le _) (hgap.trans (Nat.le_add_right _ _))
    apply hall.congr
    intro k
    rw [firstDescribed_succ]
    show _ = hits ((acc.1 ++ ([(⟨acc.2, compilerFieldOffset ir fields i⟩ : ByteRange)] ++
      localPadding ir fields rebased i)) ++ _) k
    simp only [hits_append]
    omega
  · intro x hx
    rcases List.mem_append.mp hx with hx | hx
    · have hstop := h.bounded x hx
      show x.stop ≤ compilerFieldOffset ir fields i + _
      omega
    · rcases List.mem_cons.mp hx with rfl | hx
      · exact Nat.le_add_right _ _
      · exact (localPadding_within hx).2.2
  · apply List.pairwise_append.mpr
    refine ⟨h.increasing, ?_, ?_⟩
    · apply List.pairwise_cons.mpr
      refine ⟨?_, localPadding_increasing rebased i⟩
      intro y hy
      exact (localPadding_within hy).1
    · intro x hx y hy
      have hstop := h.bounded x hx
      rcases List.mem_cons.mp hy with rfl | hy
      · exact hstop
      · have hstart := (localPadding_within hy).1
        omega
  · intro j hj
    show _ ≤ compilerFieldOffset ir fields i + _
    rcases Nat.lt_succ_iff_lt_or_eq.mp hj with hlt | heq
    · have hreached := h.reached j hlt
      omega
    · obtain rfl : j = i := Fin.ext heq
      omega
  · intro j k hjk hk
    rcases Nat.lt_succ_iff_lt_or_eq.mp hk with hlt | heq
    · exact h.apart j k hjk hlt
    · obtain rfl : k = i := Fin.ext heq
      exact (h.reached j hjk).trans hgap

/-- The whole walk, when no gap is negative. -/
theorem walked (hordered : ∀ x ∈
      ((List.finRange ir.arity).foldl (paddingStep ir fields rebased) ([], 0)).1, x.start ≤ x.stop) :
    Walked ir fields rebased ir.arity
      ((List.finRange ir.arity).foldl (paddingStep ir fields rebased) ([], 0)) := by
  have main := foldl_finRange (paddingStep ir fields rebased) ([], 0)
    (fun m acc => (∀ x ∈ acc.1, ByteRange.start x ≤ x.stop) → Walked ir fields rebased m acc)
    (fun _ => walked_zero) ?_
  · exact main hordered
  · intro i acc ih hstep
    have hbefore : ∀ x ∈ acc.1, x.start ≤ x.stop := by
      intro x hx
      exact hstep x (List.mem_append_left _ hx)
    have hgap := hstep ⟨acc.2, compilerFieldOffset ir fields i⟩
      (List.mem_append_right _ List.mem_cons_self)
    exact (ih hbefore).step hgap

/-- No gap is negative when every value is described with its size. -/
theorem gaps_ordered (hoptional : ∀ i, (fields i).isOptional = true → ir.fieldAlign i = none)
    (hsize : ∀ i, ((fields i).outerWire (rebased i)).size = (fields i).valueWire.size) :
    ((List.finRange ir.arity).foldl (paddingStep ir fields rebased) ([], 0)).2 ≤
        (struct ir fields).wire.size ∧
      ∀ x ∈ ((List.finRange ir.arity).foldl (paddingStep ir fields rebased) ([], 0)).1,
        x.start ≤ x.stop := by
  have hstorage (i : Fin ir.arity) : (outerWireFieldType ir fields rebased i).size =
      (alignedWire (ir.fieldAlign i) (fields i).wire).size := by
    rw [← alignedWire_valueWire (hoptional i)]
    exact size_alignedWire (hsize i)
  have main := foldl_finRange (paddingStep ir fields rebased) ([], 0)
    (fun m acc => acc.2 ≤ (struct ir fields).wire.size ∧
      (∀ j : Fin ir.arity, m ≤ j → acc.2 ≤ compilerFieldOffset ir fields j) ∧
      ∀ x ∈ acc.1, ByteRange.start x ≤ x.stop) ?_ ?_
  · exact ⟨main.1, main.2.2⟩
  · refine ⟨Nat.zero_le _, fun _ _ => Nat.zero_le _, ?_⟩
    intro x hx
    cases hx
  · intro i acc ih
    have hbound := fieldStorage_bound fields i
    refine ⟨?_, ?_, ?_⟩
    · show compilerFieldOffset ir fields i + _ ≤ _
      rw [hstorage]
      exact hbound
    · intro j hj
      have hlt := fieldStorage_lt fields (show i < j from hj)
      show compilerFieldOffset ir fields i + _ ≤ _
      rw [hstorage]
      exact hlt
    · intro x hx
      rcases List.mem_append.mp hx with hx | hx
      · exact ih.2.2 x hx
      · rcases List.mem_cons.mp hx with rfl | hx
        · exact ih.2.1 i le_rfl
        · exact (localPadding_within hx).2.1

theorem valueRange_eq (i : Fin ir.arity) : valueRange ir fields i =
    ⟨compilerFieldOffset ir fields i,
      compilerFieldOffset ir fields i + (fields i).valueWire.size⟩ := by
  unfold valueRange
  rw [valuePlace_offset]
  rfl

/-- A value starts where the codec selects its field; an optional's value starts with it. -/
theorem valueRange_start (i : Fin ir.arity) :
    (valueRange ir fields i).start = (fieldPlace ir fields i).offset := by
  have hvalue := valuePlace_offset (ir.fieldAlign i) (fields i).wire
  rw [valueRange_eq]
  show compilerFieldOffset ir fields i =
    compilerFieldOffset ir fields i + (valuePlace (ir.fieldAlign i) (fields i).wire).offset
  rw [hvalue]
  rfl

/-- The whole metadata tiles the record, when no gap is negative. -/
theorem padding_tiles (hordered : ∀ x ∈ structPaddingRanges ir fields rebased, x.start ≤ x.stop) :
    Tiles (structPaddingRanges ir fields rebased ++
        (List.finRange ir.arity).map (describedRange ir fields rebased)) 0
        (struct ir fields).wire.size ∧
      (∀ x ∈ structPaddingRanges ir fields rebased, x.stop ≤ (struct ir fields).wire.size) ∧
      ((structPaddingRanges ir fields rebased).Pairwise fun x y => x.stop ≤ y.start) ∧
      ∀ i j : Fin ir.arity, i < j →
        compilerFieldOffset ir fields i + ((fields i).outerWire (rebased i)).size ≤
          compilerFieldOffset ir fields j := by
  rw [structPaddingRanges_eq] at hordered ⊢
  have hwalk := walked fun x hx => hordered x (List.mem_append_left _ hx)
  have hlast := hordered _ (List.mem_append_right _ List.mem_cons_self)
  have hlen : (List.finRange ir.arity).length ≤ ir.arity := by rw [List.length_finRange]
  have hfirst : firstDescribed ir fields rebased ir.arity =
      (List.finRange ir.arity).map (describedRange ir fields rebased) := by
    unfold firstDescribed
    rw [List.take_of_length_le hlen]
  refine ⟨?_, ?_, ?_, ?_⟩
  · have htail : Tiles [(⟨((List.finRange ir.arity).foldl (paddingStep ir fields rebased)
        ([], 0)).2, (struct ir fields).wire.size⟩ : ByteRange)] _ _ := tiles_singleton
    apply (hwalk.tiles.append htail (Nat.zero_le _) hlast).congr
    intro k
    rw [← hfirst]
    simp only [hits_append]
    omega
  · intro x hx
    rcases List.mem_append.mp hx with hx | hx
    · exact (hwalk.bounded x hx).trans hlast
    · rw [List.mem_singleton.mp hx]
  · apply List.pairwise_append.mpr
    refine ⟨hwalk.increasing, List.pairwise_singleton _ _, ?_⟩
    intro x hx y hy
    rw [List.mem_singleton.mp hy]
    exact hwalk.bounded x hx
  · intro i j hij
    exact hwalk.apart i j hij j.isLt

theorem partitions_of_sizes
    (hoptional : ∀ i, (fields i).isOptional = true → ir.fieldAlign i = none)
    (hsize : ∀ i, ((fields i).outerWire (rebased i)).size = (fields i).valueWire.size) :
    Partitions (structPaddingRanges ir fields rebased) (valueRanges ir fields)
      (struct ir fields).wire.size := by
  have hgaps := gaps_ordered hoptional hsize
  have hordered : ∀ x ∈ structPaddingRanges ir fields rebased, x.start ≤ x.stop := by
    intro x hx
    rw [structPaddingRanges_eq] at hx
    rcases List.mem_append.mp hx with hx | hx
    · exact hgaps.2 x hx
    · rw [List.mem_singleton.mp hx]
      exact hgaps.1
  have hvalues : valueRanges ir fields =
      (List.finRange ir.arity).map (describedRange ir fields rebased) := by
    unfold valueRanges
    congr 1
    funext i
    rw [valueRange_eq, ← hsize i]
    rfl
  obtain ⟨htiles, hbounded, hincreasing, -⟩ := padding_tiles hordered
  refine ⟨hordered, hbounded, hincreasing, ?_⟩
  intro k hk
  rw [hvalues, htiles k, if_pos ⟨Nat.zero_le k, hk⟩]

/-- A described value of another size leaves a byte to two ranges or to none. -/
theorem sizes_of_partitions
    (hoptional : ∀ i, (fields i).isOptional = true → ir.fieldAlign i = none)
    (h : Partitions (structPaddingRanges ir fields rebased) (valueRanges ir fields)
      (struct ir fields).wire.size) (i : Fin ir.arity) :
    ((fields i).outerWire (rebased i)).size = (fields i).valueWire.size := by
  obtain ⟨htiles, -, -, hapart⟩ := padding_tiles h.ordered
  have hvalue (j : Fin ir.arity) : (fields j).valueWire.size ≤
      (alignedWire (ir.fieldAlign j) (fields j).wire).size := by
    rw [← alignedWire_valueWire (hoptional j)]
    exact size_le_alignedWire _ _
  have htrue (j k : Fin ir.arity) (hjk : j < k) : compilerFieldOffset ir fields j +
      (fields j).valueWire.size ≤ compilerFieldOffset ir fields k :=
    (Nat.add_le_add_left (hvalue j) _).trans (fieldStorage_lt fields hjk)
  -- Both lists of values hit every byte as often, since both complete the same padding.
  have hsame (k : ℕ) (hk : k < (struct ir fields).wire.size) :
      hits (valueRanges ir fields) k =
        hits ((List.finRange ir.arity).map (describedRange ir fields rebased)) k := by
    have hone := h.exactlyOne k hk
    have hother := htiles k
    rw [if_pos ⟨Nat.zero_le k, hk⟩] at hother
    rw [hits_append] at hone hother
    omega
  have hdescribed (k : ℕ) : 0 < hits ((List.finRange ir.arity).map
      (describedRange ir fields rebased)) k ↔ ∃ j : Fin ir.arity,
        compilerFieldOffset ir fields j ≤ k ∧
        k < compilerFieldOffset ir fields j + ((fields j).outerWire (rebased j)).size := by
    rw [hits_pos]
    constructor
    · rintro ⟨x, hx, hmem⟩
      obtain ⟨j, -, rfl⟩ := List.mem_map.mp hx
      exact ⟨j, hmem⟩
    · rintro ⟨j, hmem⟩
      exact ⟨_, List.mem_map.mpr ⟨j, List.mem_finRange j, rfl⟩, hmem⟩
  have hheld (k : ℕ) : 0 < hits (valueRanges ir fields) k ↔ ∃ j : Fin ir.arity,
      compilerFieldOffset ir fields j ≤ k ∧
      k < compilerFieldOffset ir fields j + (fields j).valueWire.size := by
    rw [hits_pos]
    constructor
    · rintro ⟨x, hx, hmem⟩
      obtain ⟨j, -, rfl⟩ := List.mem_map.mp hx
      rw [valueRange_eq] at hmem
      exact ⟨j, hmem⟩
    · rintro ⟨j, hmem⟩
      refine ⟨_, List.mem_map.mpr ⟨j, List.mem_finRange j, rfl⟩, ?_⟩
      rw [valueRange_eq]
      exact hmem
  by_contra hne
  rcases Nat.lt_or_gt_of_ne hne with hlt | hgt
  · have hbound := (Nat.add_le_add_left (hvalue i) _).trans (fieldStorage_bound fields i)
    have hk : compilerFieldOffset ir fields i + ((fields i).outerWire (rebased i)).size <
        (struct ir fields).wire.size := by omega
    have hhit := (hheld _).mpr ⟨i, Nat.le_add_right _ _, Nat.add_lt_add_left hlt _⟩
    rw [hsame _ hk] at hhit
    obtain ⟨j, hle, hlt'⟩ := (hdescribed _).mp hhit
    rcases lt_trichotomy j i with hji | heq | hij
    · have hsep := hapart j i hji
      omega
    · rw [heq] at hlt'
      omega
    · have hsep := htrue i j hij
      omega
  · have hhit := (hdescribed (compilerFieldOffset ir fields i + (fields i).valueWire.size)).mpr
      ⟨i, Nat.le_add_right _ _, Nat.add_lt_add_left hgt _⟩
    have hk : compilerFieldOffset ir fields i + (fields i).valueWire.size <
        (struct ir fields).wire.size := by
      by_contra hnot
      have hother := htiles (compilerFieldOffset ir fields i + (fields i).valueWire.size)
      rw [if_neg (fun hin => hnot hin.2), hits_append] at hother
      omega
    rw [← hsame _ hk] at hhit
    obtain ⟨j, hle, hlt'⟩ := (hheld _).mp hhit
    rcases lt_trichotomy j i with hji | heq | hij
    · have hsep := htrue j i hji
      omega
    · rw [heq] at hlt'
      omega
    · have hsep := hapart i j hij
      omega

end

/-- Padding and values partition the record exactly when every described value has the size of
the stored one; only the spelling of an optional's inner type can denote another wire. -/
theorem partitions_iff [Target] {ir : StructIr} {fields : Fin ir.arity → Category}
    (rebased : (i : Fin ir.arity) → (fields i).Rebased)
    (hoptional : ∀ i, (fields i).isOptional = true → ir.fieldAlign i = none) :
    Partitions (structPaddingRanges ir fields rebased) (valueRanges ir fields)
        (struct ir fields).wire.size ↔
      ∀ i, ((fields i).outerWire (rebased i)).size = (fields i).valueWire.size := by
  constructor
  · intro h i
    exact sizes_of_partitions hoptional h i
  · intro h
    exact partitions_of_sizes hoptional h

section
attribute [local instance] Target.lp64

theorem partitions_iff_envelope :
    Partitions (structPaddingRanges envelopeIr envelopeFields envelope.category.plain)
        (valueRanges envelopeIr envelopeFields) envelope.category.wire.size ↔
      ∀ i, ((envelopeFields i).outerWire (envelope.category.plain i)).size =
        (envelopeFields i).valueWire.size :=
  partitions_iff envelope.category.plain (by decide)

/-- The record that `single` declares. -/
def singleIr (name field : String) : StructIr where
  logicalName := name
  align := none
  arity := 1
  fieldName := fun _ => field
  fieldAlign := fun _ => none
  tagField := fun _ => none

/-- The second byte of `Option<self::Mode>` is listed as padding. -/
theorem padding_overlaps_value :
    (∃ d, wideModed.category.layout Schema.outerMode = some d) ∧
    ¬Partitions (structPaddingRanges (singleIr "Moded" "mode")
        (fun _ => optional none (scalarEnum wideMode)) Schema.outerMode)
      (valueRanges (singleIr "Moded" "mode") fun _ => optional none (scalarEnum wideMode))
      wideModed.category.wire.size := by
  refine ⟨⟨_, rfl⟩, ?_⟩
  intro h
  have hone := h.exactlyOne 1 (by decide)
  exact absurd hone (by decide)

end

end ZeroSchema
