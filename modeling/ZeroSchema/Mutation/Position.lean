import ZeroSchema.Mutation.Run

/-! Handles at a distance: a program that goes to a position and works there runs on the
storage that is lent there, and the whole storage follows. -/
namespace ZeroSchema
open Storage Control
variable [Target]

namespace Category

/-- What a program does that goes to a position before it works: it panics on the way, finds
nothing there, or works on what is lent there. -/
def Reaches {d : Category} {W : Layout} (input : Input W) (lent : Option (Option (Lent d)))
    (run : Mutation d → Option (Trace (Input W) (Except SchemaError Unit))) : Prop :=
  (lent = none ∧ ∀ m, run m = none) ∨ (lent = some none ∧ ∀ m, run m = some []) ∨
  ∃ part lift, lent = some (some part) ∧ lift part.input = input ∧
    ∀ m, run m = (m.run part.ctx part.tag part.input).map (Trace.within lift)

theorem Reaches.session {d : Category} {W F : Layout} {input : Input W} {offset : ℕ}
    {prove : Input F → Outcome SchemaError Unit} {child : Input F}
    {lent : Option (Option (Lent d))}
    {run : Mutation d → Input F → Option (Trace (Input F) (Except SchemaError Unit))}
    (hchild : provedChild input offset prove = some child)
    (h : Reaches child lent fun m => run m child) :
    Reaches input lent fun m => session input offset prove (run m) := by
  have hrun (m : Mutation d) : Category.session input offset prove (run m) =
      (run m child).map (Trace.within (input.release offset)) := by
    rw [Category.session, hchild]
    change (run m child >>= _) = _
    cases run m child <;> rfl
  rcases h with ⟨hlent, h⟩ | ⟨hlent, h⟩ | ⟨part, lift, hlent, hlift, h⟩
  · exact Or.inl ⟨hlent, fun m => (hrun m).trans (congrArg _ (h m))⟩
  · exact Or.inr (Or.inl ⟨hlent, fun m => (hrun m).trans (congrArg _ (h m))⟩)
  · refine Or.inr (Or.inr ⟨part, input.release offset ∘ lift, hlent, ?_, fun m => ?_⟩)
    · rw [Function.comp_apply, hlift, release_subrange (provedChild_eq_some.mp hchild).1]
    · refine (hrun m).trans ((congrArg _ (h m)).trans ?_)
      rw [Option.map_map]
      exact congrArg (Option.map · _) (funext fun trace => Trace.within_within trace)

/-- A refused part makes a panic of every program that works behind it. -/
theorem Reaches.refused {d : Category} {W F : Layout} {input : Input W} {offset : ℕ}
    {prove : Input F → Outcome SchemaError Unit}
    {run : Mutation d → Input F → Option (Trace (Input F) (Except SchemaError Unit))}
    (hchild : provedChild input offset prove = none) :
    Reaches input (none : Option (Option (Lent d)))
      fun m => Category.session input offset prove (run m) :=
  Or.inl ⟨rfl, fun m => by simp [Category.session, hchild]⟩

/-- Working at a position is working on the handle that is lent there. -/
theorem Position.reaches {c d : Category} (p : Position c d) (ctx : Context) (tag : ℕ)
    (input : Input c.wire) :
    Reaches input (p.lend ctx tag input) fun m => (p.wrap m).run ctx tag input := by
  induction p generalizing ctx tag with
  | here =>
    refine Or.inr (Or.inr ⟨⟨ctx, tag, input⟩, id, rfl, rfl, fun m => ?_⟩)
    exact Option.map_id'.symm.trans
      (congrArg (Option.map · _) (funext fun trace => (Trace.within_id trace).symm))
  | @field ir fields d i hi rest ih =>
    simp only [lend, wrap, Mutation.run]
    cases ir.siblingTag _ i with
    | none => exact Or.inl ⟨rfl, fun _ => rfl⟩
    | some tag =>
      simp only [Option.bind_eq_bind, Option.bind_some]
      cases hchild : provedChild input (fieldPlace ir fields i).offset
          ((fields i).prove (ir.context i) tag) with
      | none => exact Reaches.refused hchild
      | some child => exact (ih _ _ child).session hchild
  | @element element n d index rest ih =>
    simp only [lend, wrap, Mutation.run]
    split_ifs with hlt
    · cases checkedElementOffset index element.wire.size with
      | error e => exact Or.inl ⟨rfl, fun _ => rfl⟩
      | ok offset =>
        simp only [Except.toOption, Option.bind_eq_bind, Option.bind_some]
        cases hchild : provedChild input offset (element.prove (ctx.element n index) 0) with
        | none => exact Reaches.refused hchild
        | some child => exact (ih _ _ child).session hchild
    · exact Or.inr (Or.inl ⟨rfl, fun _ => rfl⟩)
  | @present align inner d rest ih =>
    simp only [lend, wrap, Mutation.run]
    split_ifs with hz
    · exact Or.inr (Or.inl ⟨rfl, fun _ => rfl⟩)
    · cases hchild : provedChild input (presentPlace align inner).offset (inner.prove ctx 0) with
      | none => exact Reaches.refused hchild
      | some child => exact (ih _ _ child).session hchild
  | @variant ir payload d k rest ih =>
    simp only [lend, wrap, Mutation.run, TaggedMut.accessor]
    split_ifs with hk
    · cases hchild : provedChild input 0 ((payload k).prove .root 0) with
      | none => exact Reaches.refused hchild
      | some child => exact (ih _ _ child).session hchild
    · exact Or.inr (Or.inl ⟨rfl, fun _ => rfl⟩)

theorem Position.wrap_run {c d : Category} (p : Position c d) {ctx : Context} {tag : ℕ}
    {input : Input c.wire} {part : Lent d} (hlent : p.lend ctx tag input = some (some part)) :
    ∃ lift, lift part.input = input ∧ ∀ m, (p.wrap m).run ctx tag input =
      (m.run part.ctx part.tag part.input).map (Trace.within lift) := by
  rcases p.reaches ctx tag input with ⟨hnone, -⟩ | ⟨hnone, -⟩ | ⟨part', lift, hpart', hlift, hrun⟩
  · cases hlent.symm.trans hnone
  · cases hlent.symm.trans hnone
  · obtain rfl : part' = part := Option.some.inj (Option.some.inj (hpart'.symm.trans hlent))
    exact ⟨lift, hlift, hrun⟩

/-- What is lent inside valid storage is valid. -/
theorem Position.lend_valid {c d : Category} (p : Position c d) (h : c.Accepted) {ctx : Context}
    {tag : ℕ} (hfree : c.payloadEnum = none → tag = 0) {input : Input c.wire}
    (hvalid : c.Valid tag input.bytes) {part : Lent d}
    (hlent : p.lend ctx tag input = some (some part)) :
    d.Accepted ∧ (d.payloadEnum = none → part.tag = 0) ∧ d.Valid part.tag part.input.bytes := by
  induction p generalizing ctx tag with
  | here =>
    obtain rfl := Option.some.inj (Option.some.inj hlent)
    exact ⟨h, hfree, hvalid⟩
  | @field ir fields d i hi rest ih =>
    rw [lend, siblingTag_proved] at hlent
    obtain ⟨tag, htag, hlent⟩ := Option.bind_eq_some_iff.mp hlent
    obtain ⟨child, hchild, hlent⟩ := Option.bind_eq_some_iff.mp hlent
    have hprove := (provedChild_eq_some.mp hchild).2
    exact ih (h.1 i).1 (tagAt_eq_zero h.2.1 htag) ((prove_eq_ok _ _ _ _).mp hprove) hlent
  | @element element n d index rest ih =>
    rw [lend] at hlent
    split_ifs at hlent
    · obtain ⟨offset, -, hlent⟩ := Option.bind_eq_some_iff.mp hlent
      obtain ⟨child, hchild, hlent⟩ := Option.bind_eq_some_iff.mp hlent
      have hprove := (provedChild_eq_some.mp hchild).2
      exact ih h.1 (fun _ => rfl) ((prove_eq_ok _ _ _ _).mp hprove) hlent
    · cases hlent
  | @present align inner d rest ih =>
    rw [lend] at hlent
    split_ifs at hlent
    · cases hlent
    · obtain ⟨child, hchild, hlent⟩ := Option.bind_eq_some_iff.mp hlent
      have hprove := (provedChild_eq_some.mp hchild).2
      exact ih h.1 (fun _ => rfl) ((prove_eq_ok _ _ _ _).mp hprove) hlent
  | @variant ir payload d k rest ih =>
    rw [lend, TaggedMut.accessor] at hlent
    split_ifs at hlent
    · cases hchild : provedChild input 0 ((payload k).prove .root 0) with
      | none => rw [hchild] at hlent; cases hlent
      | some child =>
        rw [hchild] at hlent
        have hprove := (provedChild_eq_some.mp hchild).2
        exact ih (h.1 k).1 (fun _ => rfl) ((prove_eq_ok _ _ _ _).mp hprove) hlent
    · cases hlent

/-- No accessor panics on valid storage when the tags are distinct. -/
theorem Position.lend_ne_none {c d : Category} (p : Position c d) (h : c.Accepted)
    (hd : c.DistinctTags) {ctx : Context} {tag : ℕ} (hfree : c.payloadEnum = none → tag = 0)
    {input : Input c.wire} (hvalid : c.Valid tag input.bytes) : p.lend ctx tag input ≠ none := by
  intro hlent
  rcases p.reaches ctx tag input with ⟨-, hrun⟩ | ⟨hsome, -⟩ | ⟨part, lift, hsome, -⟩
  · obtain ⟨trace, htrace, -⟩ := (p.wrap .skip).run_valid h hd ctx hfree hvalid
    cases htrace.symm.trans (hrun .skip)
  · rw [hlent] at hsome
    cases hsome
  · rw [hlent] at hsome
    cases hsome

omit [Target] in
theorem Position.distinctTags {c d : Category} (p : Position c d) (hd : c.DistinctTags) :
    d.DistinctTags := by
  induction p with
  | here => exact hd
  | field i hi rest ih => exact ih (hd i)
  | element index rest ih => exact ih hd
  | present rest ih => exact ih hd
  | variant k rest ih => exact ih (hd.2 k)

end Category

end ZeroSchema
