import ZeroSchema.Mutation.Simulate
import ZeroSchema.Schema.Portable

/-! Programs on two machines. A portable declaration gives the same verdict on the same bytes on
both, and a program over its handles leaves the same bytes on both. -/
namespace ZeroSchema
open Storage Control Input Category

section
variable {T U : Target}

namespace StringIr

theorem footprint_portable (h : T.AlignsAs U) (s : StringIr) (v : s.Value) :
    @footprint T s v = @footprint U s v := by
  cases s with
  | str w e n =>
    have hmembers := members_portable h w (byteData n)
    have hoffset (i : Fin 2) : (Place.field (@members T w (byteData n)) i).offset =
        (Place.field (@members U w (byteData n)) i).offset :=
      congrArg (Layout.fieldOffset · i) hmembers
    exact congrArg₂ (· ∪ ·) (Cell.region_congr (hoffset 0) rfl) (Cell.image_congr (hoffset 1) _)
  | cStr n | u16CStr n => rfl
  | u16Str w e n =>
    have hmembers : @members T w (@unitData T n) = @members U w (@unitData U n) := by
      rw [unitData_portable h, members_portable h]
    have hoffset (i : Fin 2) : (Place.field (@members T w (@unitData T n)) i).offset =
        (Place.field (@members U w (@unitData U n)) i).offset :=
      congrArg (Layout.fieldOffset · i) hmembers
    exact congrArg₂ (· ∪ ·) (Cell.region_congr (hoffset 0) rfl) (Cell.image_congr (hoffset 1) _)

end StringIr

namespace Category

/-- A value occupies the same bytes on both machines. -/
theorem footprint_portable (h : T.AlignsAs U) (c : Category) (v : c.Logical) :
    @footprint T c v = @footprint U c v := by
  induction c with
  | primitive | bool | fixedBytes | scalarEnum | tagSibling | unit => rfl
  | string s => exact StringIr.footprint_portable h s v
  | struct ir fields ih =>
    apply Set.iUnion_congr
    intro i
    rw [ih i]
    exact Cell.image_congr (fieldPlace_portable h ir fields i) _
  | tagged ir payload ih =>
    obtain ⟨k, v⟩ := v
    exact congrArg _ (ih k v)
  | array element n ih =>
    apply Set.iUnion_congr
    intro j
    rw [ih]
    exact Cell.image_congr (elementPlace_portable h element j) _
  | optional align inner ih =>
    cases v with
    | none => exact congrArg (fun L : Layout => Set.Iio L.size) (wire_portable h (optional align inner))
    | some v =>
      unfold footprint
      rw [ih]
      exact Cell.image_congr (presentPlace_portable align inner) _

/-- Storage of the same bytes. -/
def Alike (c : Category) (x : @Input T (@wire T c)) (y : @Input U (@wire U c)) : Prop :=
  (@Input.bytes T _ x).toList = (@Input.bytes U _ y).toList

variable {c : Category} {x out : @Input T (@wire T c)} {y out' : @Input U (@wire U c)} {tag : ℕ}

theorem Alike.represents (h : T.AlignsAs U) (hc : c.Portable T U) (hxy : Alike c x y)
    {v : c.Logical} (hv : @Represents T c tag (@Input.bytes T _ x) v) :
    @Represents U c tag (@Input.bytes U _ y) v :=
  represents_portable h c hc (@Input.fits U _ y) hxy hv

/-- Where one value replaces what was alike, what is left is alike. -/
theorem Alike.changes (h : T.AlignsAs U) (hc : c.Portable T U) (hacc : @Accepted U c)
    (hxy : Alike c x y) {w : c.Logical} (hw : @Represents T c tag (@Input.bytes T _ out) w)
    (hw' : @Represents U c tag (@Input.bytes U _ out') w)
    (hout : @Changes _ T (@footprint T c w) x out)
    (hout' : @Changes _ U (@footprint U c w) y out') : Alike c out out' := by
  have hsize := size_portable h c
  -- what the first machine left, moved to the second
  let moved : @Input U (@wire U c) :=
    @Input.mk U _ (@Input.address U _ y) ((@Input.bytes T _ out).cast hsize)
      (@Input.aligned U _ y) (@Input.fits U _ y)
  have hmoved : @Represents U c tag (@Input.bytes U _ moved) w :=
    represents_portable h c hc (@Input.fits U _ y) rfl hw
  have hin := @Represents.agree U c hacc tag tag moved out' w hmoved hw'
  have heq : @Input.bytes U _ out' = @Input.bytes U _ moved := by
    apply Bytes.eq_of_view
    intro k
    by_cases hk : k ∈ @footprint U c w
    · exact hin k hk
    · have hkT : k ∉ @footprint T c w := by rwa [footprint_portable h]
      have hx := ((@changes_iff _ T _ _ _).mp hout).2 k hkT
      have hy := ((@changes_iff _ U _ _ _).mp hout').2 k hk
      have hsame : (@Input.bytes T _ x).view k = (@Input.bytes U _ y).view k :=
        congrArg (·[k]?) hxy
      exact hy.trans (hsame.symm.trans hx.symm)
  exact (congrArg Bytes.toList heq).symm

/-! ### Programs -/

/-- A call does the same on both machines. -/
theorem Operation.perform_portable (h : T.AlignsAs U) (op : Operation c) (hc : c.Portable T U)
    (hacc : @Accepted T c) (hd : c.DistinctTags) (ctx ctx' : Context)
    (hfree : c.payloadEnum = none → tag = 0) (hxy : Alike c x y) {v : c.Logical}
    (hv : @Represents T c tag (@Input.bytes T _ x) v) :
    ∃ a out a' out', @Operation.perform T c op ctx tag x = some (a, out) ∧
      @Operation.perform U c op ctx' tag y = some (a', out') ∧ a.isOk = a'.isOk ∧
      Alike c out out' := by
  have hacc' := accepted_portable h hacc
  have hleft := @Operation.perform_refines T c op hacc hd ctx tag hfree x v hv
  have hright := @Operation.perform_refines U c op hacc' hd ctx' tag hfree y v (hxy.represents h hc hv)
  rcases hleft with ⟨hnone, e, hrun⟩ | ⟨w, out, hw, hrun, hrep, hout⟩
  · rcases hright with ⟨-, e', hrun'⟩ | ⟨w', -, hw', -⟩
    · exact ⟨_, x, _, y, hrun, hrun', rfl, hxy⟩
    · cases hnone.symm.trans hw'
  · rcases hright with ⟨hnone', -⟩ | ⟨w', out', hw', hrun', hrep', hout'⟩
    · cases hw.symm.trans hnone'
    · obtain rfl := Option.some.inj (hw.symm.trans hw')
      refine ⟨_, out, _, out', hrun, hrun', rfl, ?_⟩
      split_ifs at hout hout' with hclears
      · rw [hout, hout']
        exact congrArg (List.replicate · 0) (size_portable h c)
      · exact hxy.changes h hc hacc' hrep hrep' hout hout'

/-- Two runs with the same verdicts, that leave the same bytes after each call. -/
def RunsAlike (c : Category) (run : Option (Trace (@Input T (@wire T c)) (Except SchemaError Unit)))
    (run' : Option (Trace (@Input U (@wire U c)) (Except SchemaError Unit))) : Prop :=
  ∃ trace trace', run = some trace ∧ run' = some trace' ∧
    Trace.Match (Alike c) (verdicts trace) (verdicts trace')

theorem RunsAlike.within (h : T.AlignsAs U) {b : Category}
    {run : Option (Trace (@Input T (@wire T b)) (Except SchemaError Unit))}
    {run' : Option (Trace (@Input U (@wire U b)) (Except SchemaError Unit))}
    (hrun : RunsAlike b run run') (hxy : Alike c x y) {p : Place (@wire T c) (@wire T b)}
    {q : Place (@wire U c) (@wire U b)} (hoffset : p.offset = q.offset) :
    RunsAlike c
      (run.map (Trace.within fun child => @Input.put T _ _ x p.toCell (@Input.bytes T _ child)))
      (run'.map (Trace.within fun child => @Input.put U _ _ y q.toCell (@Input.bytes U _ child))) := by
  obtain ⟨trace, trace', hrun, hrun', hmatch⟩ := hrun
  refine ⟨trace.within _, trace'.within _, by rw [hrun]; rfl, by rw [hrun']; rfl, ?_⟩
  rw [verdicts_within, verdicts_within]
  exact hmatch.within fun _ _ hab => Cell.toList_put_congr hoffset (size_portable h b) hxy hab

/-- A program does the same on both machines. -/
theorem Mutation.run_portable (h : T.AlignsAs U) (m : Mutation c) (hc : c.Portable T U)
    (hacc : @Accepted T c) (hd : c.DistinctTags) (ctx ctx' : Context)
    (hfree : c.payloadEnum = none → tag = 0) (hxy : Alike c x y) {v : c.Logical}
    (hv : @Represents T c tag (@Input.bytes T _ x) v) :
    RunsAlike c (@Mutation.run T c m ctx tag x) (@Mutation.run U c m ctx' tag y) := by
  induction m generalizing ctx ctx' tag with
  | call op =>
    obtain ⟨a, out, a', out', hrun, hrun', ha, hout⟩ :=
      op.perform_portable h hc hacc hd ctx ctx' hfree hxy hv
    refine ⟨[(a, out)], [(a', out')], ?_, ?_, .cons ⟨ha, hout⟩ .nil⟩
    · rw [@Mutation.run.eq_1 T, hrun]
      rfl
    · rw [@Mutation.run.eq_1 U, hrun']
      rfl
  | skip => exact ⟨[], [], rfl, rfl, .nil⟩
  | @seq c first rest ihf ihr =>
    obtain ⟨done, done', hdone, hdone', hfirst⟩ := ihf hc hacc hd ctx ctx' hfree hxy hv
    obtain ⟨_, hsame, hvalue⟩ := @Mutation.run_refines T c first hacc hd ctx tag hfree x v hv
    obtain rfl := Option.some.inj (hdone.symm.trans hsame)
    have hmid : Alike c (Trace.final x done) (Trace.final y done') := by
      rw [← final_verdicts, ← final_verdicts y]
      exact hfirst.final hxy
    have hleft : @Represents T c tag (@Input.bytes T _ (Trace.final x done))
        (Trace.final v (first.eval v)) := by
      rw [← final_verdicts]
      exact Trace.Match.final
        (R := fun state v => @Represents T c tag (@Input.bytes T _ state) v) hv hvalue
    obtain ⟨more, more', hmore, hmore', hrest⟩ := ihr hc hacc hd ctx ctx' hfree hmid hleft
    refine ⟨done ++ more, done' ++ more', ?_, ?_, ?_⟩
    · rw [@Mutation.run.eq_3 T, hdone]
      change (@Mutation.run T c rest ctx tag (Trace.final x done) >>= _) = _
      rw [hmore]
      rfl
    · rw [@Mutation.run.eq_3 U, hdone']
      change (@Mutation.run U c rest ctx' tag (Trace.final y done') >>= _) = _
      rw [hmore']
      rfl
    · have happend : verdicts (done ++ more) = verdicts done ++ verdicts more := List.map_append
      have happend' : verdicts (done' ++ more') = verdicts done' ++ verdicts more' := List.map_append
      rw [happend, happend']
      exact hfirst.append hrest
  | @field ir fields i hi m ih =>
    obtain rfl := hfree rfl
    have hv' := hxy.represents h hc hv
    obtain ⟨ftag, htag, hfield⟩ := hv i
    obtain ⟨_, htag', hfield'⟩ := hv' i
    obtain rfl := Option.some.inj ((htag'.symm.trans (tagAt_portable h hc hxy i).symm).trans htag)
    rw [@Mutation.run_field T _ _ _ hi m _ _ _ x htag (@Represents.valid_part T _ _ _ x _ _ hfield),
      @Mutation.run_field U _ _ _ hi m _ _ _ y htag' (@Represents.valid_part U _ _ _ y _ _ hfield')]
    have hpart : Alike (fields i) (@Input.child T _ _ x (@fieldPlace T ir fields i))
        (@Input.child U _ _ y (@fieldPlace U ir fields i)) := field_portable h hxy i
    exact (ih (hc i) (hacc.1 i).1 (hd i) (ir.context i) (ir.context i)
      (@tagAt_eq_zero T _ _ hacc.2.1 _ _ _ htag) hpart hfield).within h hxy (fieldPlace_portable h ir fields i)
  | @element element n index m ih =>
    obtain rfl := hfree rfl
    have hv' := hxy.represents h hc hv
    by_cases hlt : index < n
    · have helement := hv ⟨index, hlt⟩
      have helement' := hv' ⟨index, hlt⟩
      rw [@Mutation.run_element T _ _ ⟨index, hlt⟩ m _ _ x
          (@Represents.valid_part T _ _ _ x _ _ helement),
        @Mutation.run_element U _ _ ⟨index, hlt⟩ m _ _ y
          (@Represents.valid_part U _ _ _ y _ _ helement')]
      have hpart : Alike element (@Input.child T _ _ x (@elementPlace T element n ⟨index, hlt⟩))
          (@Input.child U _ _ y (@elementPlace U element n ⟨index, hlt⟩)) :=
        element_portable h hxy ⟨index, hlt⟩
      exact (ih hc hacc.1 hd _ _ (fun _ => rfl) hpart helement).within h hxy
        (elementPlace_portable h element ⟨index, hlt⟩)
    · rw [@Mutation.run.eq_5 T, @Mutation.run.eq_5 U, if_neg hlt, if_neg hlt]
      exact ⟨[], [], rfl, rfl, .nil⟩
  | @present align inner m ih =>
    obtain rfl := hfree rfl
    have hv' := hxy.represents h hc hv
    cases v with
    | none =>
      rw [@Mutation.run.eq_6 T, @Mutation.run.eq_6 U, if_pos ((@Input.isAllZero_eq_true T _ x).mpr hv),
        if_pos ((@Input.isAllZero_eq_true U _ y).mpr hv')]
      exact ⟨[], [], rfl, rfl, .nil⟩
    | some v =>
      rw [@Mutation.run_present T _ _ m _ _ x hv.1 (@Represents.valid_part T _ _ _ x _ _ hv.2),
        @Mutation.run_present U _ _ m _ _ y hv'.1 (@Represents.valid_part U _ _ _ y _ _ hv'.2)]
      have hpart : Alike inner (@Input.child T _ _ x (@presentPlace T align inner))
          (@Input.child U _ _ y (@presentPlace U align inner)) := present_portable h hxy
      exact (ih hc hacc.1 hd ctx ctx' (fun _ => rfl) hpart hv.2).within h hxy
        (presentPlace_portable align inner)
  | @variant ir payload k m ih =>
    have hv' := hxy.represents h hc hv
    have hstored : (ir.tag v.1 : ℕ) = tag := TaggedIr.tag_of_select hv.1
    by_cases hk : v.1 = k
    · obtain ⟨j, v⟩ := v
      obtain rfl : j = k := hk
      rw [@Mutation.run_variant T _ _ _ m _ _ x hstored.symm
          (@Represents.valid_part T _ _ _ x _ _ hv.2),
        @Mutation.run_variant U _ _ _ m _ _ y hstored.symm
          (@Represents.valid_part U _ _ _ y _ _ hv'.2)]
      have hpart : Alike (payload j) (@Input.child T _ _ x (@payloadPlace T ir payload j))
          (@Input.child U _ _ y (@payloadPlace U ir payload j)) := payload_portable h hxy j
      exact (ih (hc j) (hacc.1 j).1 (hd.2 j) .root .root (fun _ => rfl) hpart hv.2).within h hxy rfl
    · have htag : ¬tag = ir.tag k := fun h => hk (hd.1 (Fin.ext (hstored.trans h)))
      rw [@Mutation.run.eq_7 T, @Mutation.run.eq_7 U, if_neg htag, if_neg htag]
      exact ⟨[], [], rfl, rfl, .nil⟩

end Category

namespace Schema

/-- A declaration as another machine compiles it. -/
def on (S : @Schema T) (h : T.AlignsAs U) : @Schema U :=
  @Schema.mk U (@Schema.category T S) (@Schema.path T S) (accepted_portable h (@Schema.accepted T S))

/-- Exclusive access to as many bytes as the wire has reports their first fault. -/
theorem accessMut_exact [Target] {S : Schema} {n : ℕ} (s : Slice n) (hn : n = S.wire.size)
    (halign : S.wire.align ∣ s.address) :
    ∃ input : Input S.wire, input.bytes.toList = s.bytes.toList ∧
      S.accessMut s = (firstErr ((S.category.faults 0 input.bytes).map fun f =>
        .leaf S.name f.path f.kind) >>= fun _ => .ok input) := by
  subst hn
  obtain ⟨input, hbytes, haccess⟩ := access_eq halign
  refine ⟨input, by rw [hbytes], ?_⟩
  rw [hbytes]
  exact haccess

theorem accessMut_size [Target] {S : Schema} {n : ℕ} (s : Slice n) (hn : n ≠ S.wire.size) :
    S.accessMut s = .err (.layout S.name (.incorrectSize S.wire.size n)) := by
  unfold accessMut Input.fromChecked
  rw [dif_neg hn]
  rfl

section Sample

/-- A 32-bit big-endian machine with natural alignment. -/
@[reducible] def be32 : Target :=
  { Target.lp64 with
    endian := .big
    usizeBits := 32
    usizeBits_ge := by decide }

theorem alignsAs_be32 : Target.lp64.AlignsAs be32 := ⟨rfl, rfl, rfl⟩

/-- `Stamped { count: u32 }` with a count that is little-endian everywhere. -/
def stamped : @Schema Target.lp64 :=
  @Schema.mk Target.lp64 (single "Stamped" "count" (primitive .u32 .little)) rfl (by decide)

/-- A count of 258. -/
def stampedBytes : Bytes 4 := ⟨[2, 1, 0, 0], rfl⟩

def stampedHere : @Slice Target.lp64 4 := @Slice.mk Target.lp64 4 64 stampedBytes (by decide)

def stampedThere : @Slice be32 4 := @Slice.mk be32 4 128 stampedBytes (by decide)

end Sample

end Schema

end

end ZeroSchema
