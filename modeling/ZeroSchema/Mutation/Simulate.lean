import ZeroSchema.Mutation.Refine

/-! Whole programs refine their purpose: the storage goes through the values that the program goes
through, and every handle shows the part of the value that it is for. -/
namespace ZeroSchema
open Storage Control Input

namespace Category

/-- The part of a value at a position, if it is there. -/
def Position.part : {c d : Category} → Position c d → c.Logical → Option d.Logical
  | _, _, here, v => some v
  | struct _ _, _, field i _ rest, v => rest.part (v i)
  | array _ n, _, element index rest, v => if h : index < n then rest.part (v ⟨index, h⟩) else none
  | optional _ _, _, present rest, v => Option.bind v rest.part
  | tagged _ _, _, variant k rest, v => (payloadOf k v).bind rest.part

section
variable [Target]

/-- Which calls of a run were accepted, and what each left. -/
def verdicts {σ : Type} (x : Trace σ (Except SchemaError Unit)) : Trace σ Bool :=
  x.map fun a => (a.1.isOk, a.2)

omit [Target] in
theorem verdicts_within {σ τ : Type} (lift : τ → σ) (x : Trace τ (Except SchemaError Unit)) :
    verdicts (x.within lift) = (verdicts x).within lift := by
  simp [verdicts, Trace.within]

omit [Target] in
theorem final_verdicts {σ : Type} (s : σ) (x : Trace σ (Except SchemaError Unit)) :
    Trace.final s (verdicts x) = Trace.final s x := by
  induction x generalizing s with
  | nil => rfl
  | cons a x ih => exact ih a.2

/-- A run goes through storages of the values that the program goes through. -/
def RunRefines (c : Category) (tag : ℕ) (run : Option (Trace (Input c.wire) (Except SchemaError Unit)))
    (eval : Trace c.Logical Bool) : Prop :=
  ∃ trace, run = some trace ∧
    Trace.Match (fun state v => c.Represents tag state.bytes v) (verdicts trace) eval

theorem RunRefines.within {c b : Category} {tag tag' : ℕ} {input : Input c.wire}
    {p : Place c.wire b.wire} {run : Option (Trace (Input b.wire) (Except SchemaError Unit))}
    {eval : Trace b.Logical Bool} {lift : b.Logical → c.Logical} (hrun : b.RunRefines tag' run eval)
    (hput : ∀ (x : Input b.wire) v, b.Represents tag' x.bytes v →
      c.Represents tag (p.put input.bytes x.bytes) (lift v)) :
    c.RunRefines tag (run.map (Trace.within fun child => input.put p.toCell child.bytes))
      (eval.within lift) := by
  obtain ⟨trace, hrun, hmatch⟩ := hrun
  refine ⟨trace.within _, by rw [hrun]; rfl, ?_⟩
  rw [verdicts_within]
  exact hmatch.within fun x v hv => hput x v hv

theorem Represents.valid_part {W : Layout} {f : Category} {p : Place W f.wire} {input : Input W}
    {tag : ℕ} {v : f.Logical} (h : f.Represents tag (p.get input.bytes) v) :
    f.Valid tag (p.get input.bytes) := by
  have hchild : f.Represents tag (input.child p).bytes v := h
  exact hchild.valid

/-! ### What a program does to a valid part, it does to the whole -/

theorem Mutation.run_field {ir : StructIr} {fields : Fin ir.arity → Category} {i : Fin ir.arity}
    (hi : (fields i).tagEnum = none) (m : Mutation (fields i)) {ctx : Context} {tag ftag : ℕ}
    {input : Input (struct ir fields).wire} (htag : tagAt ir fields input.bytes i = some ftag)
    (hvalid : (fields i).Valid ftag ((fieldPlace ir fields i).get input.bytes)) :
    (Mutation.field i hi m).run ctx tag input =
      (m.run (ir.context i) ftag (input.child (fieldPlace ir fields i))).map
        (Trace.within fun child => input.put (fieldPlace ir fields i).toCell child.bytes) := by
  have hprove := (prove_eq_ok (fields i) (ir.context i) ftag
    (input.child (fieldPlace ir fields i))).mpr hvalid
  rw [run, siblingTag_proved, htag]
  exact session_place input (fieldPlace ir fields i) hprove

theorem Mutation.run_element {element : Category} {n : ℕ} (index : Fin n) (m : Mutation element)
    {ctx : Context} {tag : ℕ} {input : Input (array element n).wire}
    (hvalid : element.Valid 0 ((elementPlace element index).get input.bytes)) :
    (Mutation.element (n := n) index m).run ctx tag input =
      (m.run (ctx.element n index) 0 (input.child (elementPlace element index))).map
        (Trace.within fun child => input.put (elementPlace element index).toCell child.bytes) := by
  have hprove := (prove_eq_ok element (ctx.element n index) 0
    (input.child (elementPlace element index))).mpr hvalid
  rw [run, if_pos index.isLt, checkedElementOffset_eq input index]
  exact session_place input (elementPlace element index) hprove

theorem Mutation.run_present {align : Option Alignment} {inner : Category} (m : Mutation inner)
    {ctx : Context} {tag : ℕ} {input : Input (optional align inner).wire}
    (hzero : ¬input.bytes.IsZero)
    (hvalid : inner.Valid 0 ((presentPlace align inner).get input.bytes)) :
    (Mutation.present m : Mutation (optional align inner)).run ctx tag input =
      (m.run ctx 0 (input.child (presentPlace align inner))).map
        (Trace.within fun child => input.put (presentPlace align inner).toCell child.bytes) := by
  have hprove := (prove_eq_ok inner ctx 0 (input.child (presentPlace align inner))).mpr hvalid
  rw [run, if_neg (mt Input.isAllZero_eq_true.mp hzero)]
  exact session_place input (presentPlace align inner) hprove

theorem Mutation.run_variant {ir : TaggedIr} {payload : Fin ir.arity → Category}
    {k : Fin ir.arity} (m : Mutation (payload k)) {ctx : Context} {tag : ℕ}
    {input : Input (tagged ir payload).wire} (htag : tag = ir.tag k)
    (hvalid : (payload k).Valid 0 ((payloadPlace ir payload k).get input.bytes)) :
    (Mutation.variant k m).run ctx tag input =
      (m.run .root 0 (input.child (payloadPlace ir payload k))).map
        (Trace.within fun child => input.put (payloadPlace ir payload k).toCell child.bytes) := by
  have hprove := (prove_eq_ok (payload k) .root 0
    (input.child (payloadPlace ir payload k))).mpr hvalid
  rw [run, if_pos htag]
  exact session_place input (payloadPlace ir payload k) hprove

/-- A program does to the bytes what it does to the value that they hold. -/
theorem Mutation.run_refines {c : Category} (m : Mutation c) (hacc : c.Accepted)
    (hd : c.DistinctTags) (ctx : Context) {tag : ℕ} (hfree : c.payloadEnum = none → tag = 0)
    {input : Input c.wire} {v : c.Logical} (hv : c.Represents tag input.bytes v) :
    c.RunRefines tag (m.run ctx tag input) (m.eval v) := by
  induction m generalizing ctx tag with
  | call op =>
    rcases op.perform_refines hacc hd ctx hfree hv with ⟨hnone, e, hrun⟩ | ⟨w, out, hw, hrun, hrep, -⟩
    · refine ⟨[(.error e, input)], by rw [run, hrun]; rfl, ?_⟩
      rw [eval, hnone]
      exact .cons ⟨rfl, hv⟩ .nil
    · refine ⟨[(.ok (), out)], by rw [run, hrun]; rfl, ?_⟩
      rw [eval, hw]
      exact .cons ⟨rfl, hrep⟩ .nil
  | skip => exact ⟨[], rfl, .nil⟩
  | @seq c first rest ihf ihr =>
    obtain ⟨done, hdone, hfirst⟩ := ihf hacc hd ctx hfree hv
    have hfinal : c.Represents tag (Trace.final input (verdicts done)).bytes
        (Trace.final v (first.eval v)) :=
      Trace.Match.final (R := fun state v => c.Represents tag (Input.bytes state) v) hv hfirst
    rw [final_verdicts] at hfinal
    obtain ⟨more, hmore, hrest⟩ := ihr hacc hd ctx hfree hfinal
    refine ⟨done ++ more, ?_, ?_⟩
    · rw [run, hdone]
      change (rest.run ctx tag (Trace.final input done) >>= _) = _
      rw [hmore]
      rfl
    · have happend : verdicts (done ++ more) = verdicts done ++ verdicts more := List.map_append
      rw [happend, eval]
      exact hfirst.append hrest
  | @field ir fields i hi m ih =>
    obtain rfl := hfree rfl
    obtain ⟨tag, htag, hfield⟩ := hv i
    have hfree' := tagAt_eq_zero hacc.2.1 htag
    rw [run_field hi m htag hfield.valid_part]
    exact (ih (hacc.1 i).1 (hd i) (ir.context i) hfree' hfield).within
      fun x w hw => represents_put_field hacc.2.1 hi hv htag hw
  | @element element n index m ih =>
    obtain rfl := hfree rfl
    rw [eval]
    by_cases hlt : index < n
    · have helement := hv ⟨index, hlt⟩
      rw [dif_pos hlt, run_element ⟨index, hlt⟩ m
        helement.valid_part]
      exact (ih hacc.1 hd (ctx.element n index) (fun _ => rfl) helement).within
        fun x w hw => represents_put_element hv hw
    · rw [run, if_neg hlt, dif_neg hlt]
      exact ⟨[], rfl, .nil⟩
  | @present align inner m ih =>
    obtain rfl := hfree rfl
    cases v with
    | none =>
      rw [run, eval, if_pos (Input.isAllZero_eq_true.mpr hv)]
      exact ⟨[], rfl, .nil⟩
    | some v =>
      rw [eval, run_present m hv.1
        hv.2.valid_part]
      exact (ih hacc.1 hd ctx (fun _ => rfl) hv.2).within
        fun x w hw => represents_put_present hacc hw
  | @variant ir payload k m ih =>
    have hselect : ir.select tag = some v.1 := hv.1
    have hstored : (ir.tag v.1 : ℕ) = tag := TaggedIr.tag_of_select hselect
    rw [eval]
    by_cases hk : v.1 = k
    · obtain ⟨j, v⟩ := v
      obtain rfl : j = k := hk
      have hpayload : payloadOf j (⟨j, v⟩ : (tagged ir payload).Logical) = some v := dif_pos rfl
      rw [hpayload, run_variant m hstored.symm
        hv.2.valid_part]
      refine (ih (hacc.1 j).1 (hd.2 j) .root (fun _ => rfl) hv.2).within fun x w hw => ⟨hselect, ?_⟩
      rwa [Cell.get_put]
    · have hpayload : payloadOf k v = none := dif_neg hk
      have htag : ¬tag = ir.tag k := fun h => hk (hd.1 (Fin.ext (hstored.trans h)))
      rw [run, if_neg htag, hpayload]
      exact ⟨[], rfl, .nil⟩

/-- The handle at a position shows the part of the value there. -/
def Position.Shows {c d : Category} (p : Position c d) (ctx : Context) (tag : ℕ)
    (input : Input c.wire) (v : c.Logical) : Prop :=
  (p.part v = none ∧ p.lend ctx tag input = some none) ∨
  ∃ w part, p.part v = some w ∧ p.lend ctx tag input = some (some part) ∧
    d.Represents part.tag part.input.bytes w

theorem Position.shows {c d : Category} (p : Position c d) (hacc : c.Accepted)
    (hd : c.DistinctTags) (ctx : Context) {tag : ℕ} (hfree : c.payloadEnum = none → tag = 0)
    {input : Input c.wire} {v : c.Logical} (hv : c.Represents tag input.bytes v) :
    p.Shows ctx tag input v := by
  induction p generalizing ctx tag with
  | here => exact Or.inr ⟨v, ⟨ctx, tag, input⟩, rfl, rfl, hv⟩
  | @field ir fields d i hi rest ih =>
    obtain rfl := hfree rfl
    obtain ⟨tag, htag, hfield⟩ := hv i
    have hprove := (prove_eq_ok (fields i) (ir.context i) tag
      (input.child (fieldPlace ir fields i))).mpr (Represents.valid (fields i) hfield)
    have hlend : (Position.field i hi rest).lend ctx 0 input =
        rest.lend (ir.context i) tag (input.child (fieldPlace ir fields i)) := by
      rw [lend, siblingTag_proved, htag]
      change (provedChild input _ _ >>= _) = _
      rw [provedChild_place input (fieldPlace ir fields i) hprove]
      rfl
    unfold Shows
    rw [hlend, part]
    exact ih (hacc.1 i).1 (hd i) (ir.context i) (tagAt_eq_zero hacc.2.1 htag) hfield
  | @element element n d index rest ih =>
    obtain rfl := hfree rfl
    unfold Shows
    rw [lend, part]
    by_cases hlt : index < n
    · have helement := hv ⟨index, hlt⟩
      have hprove := (prove_eq_ok element (ctx.element n index) 0
        (input.child (elementPlace element ⟨index, hlt⟩))).mpr (Represents.valid element helement)
      have hchild := provedChild_place input (elementPlace element ⟨index, hlt⟩) hprove
      rw [if_pos hlt, dif_pos hlt, checkedElementOffset_eq input ⟨index, hlt⟩]
      change (_ ∧ (provedChild input _ _ >>= _) = _) ∨ ∃ w part, _ ∧ (provedChild input _ _ >>= _) = _ ∧ _
      rw [hchild]
      exact ih hacc.1 hd (ctx.element n index) (fun _ => rfl) helement
    · rw [if_neg hlt, dif_neg hlt]
      exact Or.inl ⟨rfl, rfl⟩
  | @present align inner d rest ih =>
    obtain rfl := hfree rfl
    unfold Shows
    rw [lend, part]
    cases v with
    | none =>
      rw [if_pos (Input.isAllZero_eq_true.mpr hv)]
      exact Or.inl ⟨rfl, rfl⟩
    | some v =>
      have hprove := (prove_eq_ok inner ctx 0 (input.child (presentPlace align inner))).mpr
        (Represents.valid inner hv.2)
      rw [if_neg (mt Input.isAllZero_eq_true.mp hv.1),
        provedChild_place input (presentPlace align inner) hprove]
      exact ih hacc.1 hd ctx (fun _ => rfl) hv.2
  | @variant ir payload d k rest ih =>
    have hselect : ir.select tag = some v.1 := hv.1
    have hstored : (ir.tag v.1 : ℕ) = tag := TaggedIr.tag_of_select hselect
    unfold Shows
    rw [lend, part, TaggedMut.accessor]
    by_cases hk : v.1 = k
    · obtain ⟨j, v⟩ := v
      obtain rfl : j = k := hk
      have hpayload : payloadOf j (⟨j, v⟩ : (tagged ir payload).Logical) = some v := dif_pos rfl
      have hprove := (prove_eq_ok (payload j) .root 0
        (input.child (payloadPlace ir payload j))).mpr (Represents.valid (payload j) hv.2)
      have hchild : provedChild input 0 ((payload j).prove .root 0) = some _ :=
        provedChild_place input (payloadPlace ir payload j) hprove
      rw [if_pos hstored.symm, hpayload, hchild]
      exact ih (hacc.1 j).1 (hd.2 j) .root (fun _ => rfl) hv.2
    · have hpayload : payloadOf k v = none := dif_neg hk
      have htag : ¬tag = ir.tag k := fun h => hk (hd.1 (Fin.ext (hstored.trans h)))
      rw [if_neg htag, hpayload]
      exact Or.inl ⟨rfl, rfl⟩

end

end Category

open Category

namespace Schema

/-- The storage of a root holds a value, and every handle shows its part of the value. -/
def Holds [Target] (S : Schema) (input : Input S.wire) (v : S.category.Logical) : Prop :=
  S.category.materialize 0 input = some v ∧ ∀ d (p : Position S.category d), p.Shows .root 0 input v

theorem holds_of_represents [Target] {S : Schema} (hd : S.category.DistinctTags)
    {input : Input S.wire} {v : S.category.Logical} (hv : S.category.Represents 0 input.bytes v) :
    S.Holds input v := by
  constructor
  · exact materialize_eq _ input hv
  · intro d p
    exact p.shows S.accepted hd .root (fun _ => rfl) hv

section
attribute [local instance] Target.lp64

/-- The mode that was cleared takes no call any more. -/
example : (emptying.eval (eachField dataKind ⟨secondVariant, fun _ => 5#32⟩ (some firstMode))).map
    Prod.fst = [true, true] := by decide

end

end Schema

end ZeroSchema
