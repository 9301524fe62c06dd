import ZeroSchema.Schema.Category

/-! The three compile-time analyses of an all-zero wire: `ZeroState` over-approximates,
`ClearState` under-approximates and `ZERO_IS_VALID` is meant to be exact. -/
namespace ZeroSchema

inductive ZeroState
  | zeroValid
  | zeroInvalid
deriving DecidableEq

namespace ZeroState

/-- Valid only when both operands are valid. -/
def or : ZeroState → ZeroState → ZeroState
  | zeroValid, rhs => rhs
  | zeroInvalid, _ => zeroInvalid

/-- Invalid only when both operands are invalid. -/
def and : ZeroState → ZeroState → ZeroState
  | zeroValid, _ => zeroValid
  | zeroInvalid, rhs => rhs

def ofFlag (valid : Bool) : ZeroState := if valid then zeroValid else zeroInvalid

@[simp] theorem or_eq_zeroValid {a b : ZeroState} :
    a.or b = zeroValid ↔ a = zeroValid ∧ b = zeroValid := by
  cases a <;> simp [or]

@[simp] theorem and_eq_zeroValid {a b : ZeroState} :
    a.and b = zeroValid ↔ a = zeroValid ∨ b = zeroValid := by
  cases a <;> simp [and]

@[simp] theorem ofFlag_eq_zeroValid {valid : Bool} : ofFlag valid = zeroValid ↔ valid = true := by
  cases valid <;> simp [ofFlag]

end ZeroState

/-- Which of the two associated states a record composes. -/
inductive ZeroProjection
  | zero
  | clear

namespace Category

/-- Records compose their fields right to left with `Or`, payloads their variants left to
right: with `And` for `ZeroState`, and for `ClearState` with `Or` from the flag that says
whether some variant claims the zero tag. -/
def state (projection : ZeroProjection) : Category → ZeroState
  | primitive _ _ | bool | string _ | fixedBytes _ | optional _ _ | unit => .zeroValid
  | scalarEnum ir | tagSibling ir => .ofFlag ir.declaresZero
  | struct ir fields =>
    (List.finRange ir.arity).foldr (fun i composed => (state projection (fields i)).or composed)
      .zeroValid
  | tagged ir payload =>
    match projection with
    | .zero =>
      (List.finRange ir.arity).foldl (fun acc k => (state .zero (payload k)).and acc) .zeroInvalid
    | .clear =>
      (List.finRange ir.arity).foldl (fun acc k => (state .clear (payload k)).or acc)
        (.ofFlag ((List.finRange ir.arity).any fun k => ir.tagType.toRaw (ir.tag k) == 0))
  | array element _ => state projection element

def zeroState (c : Category) : ZeroState := c.state .zero

def clearState (c : Category) : ZeroState := c.state .clear

/-- A record needs every field zero-valid, a payload the variant that the zero tag selects. -/
def zeroIsValid : Category → Bool
  | primitive _ _ | bool | string _ | fixedBytes _ | optional _ _ | unit => true
  | scalarEnum ir | tagSibling ir => ir.declaresZero
  | struct ir fields => (List.finRange ir.arity).all fun i => zeroIsValid (fields i)
  | tagged ir payload =>
    (List.finRange ir.arity).any fun k =>
      ir.tagType.toRaw (ir.tag k) == 0 && zeroIsValid (payload k)
  | array element _ => zeroIsValid element

/-- No tagged payload anywhere in the declaration. -/
def TagFree : Category → Prop
  | struct ir fields => ∀ i : Fin ir.arity, TagFree (fields i)
  | tagged _ _ => False
  | array element _ => TagFree element
  | optional _ inner => TagFree inner
  | _ => True

section
variable {α : Type} {f : α → ZeroState} {l : List α}

private theorem foldr_or : l.foldr (fun x acc => (f x).or acc) .zeroValid = .zeroValid ↔
    ∀ x ∈ l, f x = .zeroValid := by
  induction l with
  | nil => simp
  | cons x l ih => simp [ih]

private theorem foldl_or (init : ZeroState) :
    l.foldl (fun acc x => (f x).or acc) init = .zeroValid ↔
      init = .zeroValid ∧ ∀ x ∈ l, f x = .zeroValid := by
  induction l generalizing init with
  | nil => simp
  | cons x l ih =>
    rw [List.foldl_cons, ih, ZeroState.or_eq_zeroValid, List.forall_mem_cons]
    tauto

private theorem foldl_and (init : ZeroState) :
    l.foldl (fun acc x => (f x).and acc) init = .zeroValid ↔
      init = .zeroValid ∨ ∃ x ∈ l, f x = .zeroValid := by
  induction l generalizing init with
  | nil => simp
  | cons x l ih =>
    rw [List.foldl_cons, ih, ZeroState.and_eq_zeroValid, List.exists_mem_cons_iff]
    tauto

end

section
variable {ir : StructIr} {fields : Fin ir.arity → Category}
variable {tir : TaggedIr} {payload : Fin tir.arity → Category}

theorem state_struct {projection : ZeroProjection} :
    (struct ir fields).state projection = .zeroValid ↔
      ∀ i, (fields i).state projection = .zeroValid := by
  rw [state, foldr_or]
  simp

theorem zeroState_tagged :
    (tagged tir payload).zeroState = .zeroValid ↔ ∃ k, (payload k).zeroState = .zeroValid := by
  rw [zeroState, state, foldl_and]
  simp [zeroState]

theorem clearState_tagged :
    (tagged tir payload).clearState = .zeroValid ↔
      (∃ k, tir.tagType.toRaw (tir.tag k) = 0) ∧ ∀ k, (payload k).clearState = .zeroValid := by
  rw [clearState, state, foldl_or]
  simp [clearState]

theorem zeroIsValid_struct :
    (struct ir fields).zeroIsValid = true ↔ ∀ i, (fields i).zeroIsValid = true := by
  simp [zeroIsValid]

theorem zeroIsValid_tagged :
    (tagged tir payload).zeroIsValid = true ↔
      ∃ k, tir.tagType.toRaw (tir.tag k) = 0 ∧ (payload k).zeroIsValid = true := by
  simp [zeroIsValid]

end

/-- A clearable declaration is zero-valid. -/
theorem zeroIsValid_of_clearState (c : Category) (h : c.clearState = .zeroValid) :
    c.zeroIsValid = true := by
  induction c with
  | primitive | bool | string | fixedBytes | optional | unit => rfl
  | scalarEnum ir => exact ZeroState.ofFlag_eq_zeroValid.mp h
  | tagSibling ir => exact ZeroState.ofFlag_eq_zeroValid.mp h
  | struct ir fields ih =>
    exact zeroIsValid_struct.mpr fun i => ih i (state_struct.mp h i)
  | tagged ir payload ih =>
    obtain ⟨⟨k, hk⟩, hall⟩ := clearState_tagged.mp h
    exact zeroIsValid_tagged.mpr ⟨k, hk, ih k (hall k)⟩
  | array element n ih => exact ih h

/-- A zero-valid declaration is not allowed inside an optional. -/
theorem zeroState_of_zeroIsValid (c : Category) (h : c.zeroIsValid = true) :
    c.zeroState = .zeroValid := by
  induction c with
  | primitive | bool | string | fixedBytes | optional | unit => rfl
  | scalarEnum ir => exact ZeroState.ofFlag_eq_zeroValid.mpr h
  | tagSibling ir => exact ZeroState.ofFlag_eq_zeroValid.mpr h
  | struct ir fields ih =>
    exact state_struct.mpr fun i => ih i (zeroIsValid_struct.mp h i)
  | tagged ir payload ih =>
    obtain ⟨k, -, hk⟩ := zeroIsValid_tagged.mp h
    exact zeroState_tagged.mpr ⟨k, ih k hk⟩
  | array element n ih => exact ih h

/-- Without a tagged payload the two states are the same. -/
theorem clearState_eq_zeroState (c : Category) (h : c.TagFree) : c.clearState = c.zeroState := by
  induction c with
  | primitive | bool | string | fixedBytes | scalarEnum | tagSibling | unit | optional => rfl
  | struct ir fields ih =>
    have hfields : ∀ i, (fields i).state .clear = (fields i).state .zero := fun i => ih i (h i)
    simp only [clearState, zeroState, state, hfields]
  | tagged ir payload => exact h.elim
  | array element n ih => exact ih h

end Category

end ZeroSchema
