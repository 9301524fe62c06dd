import ZeroSchema.Library.Outcome

/-! Partial computations against relations. A decoder realizes a relation when it yields the
image of every related value and nothing else. -/
namespace Control

/-- The computation yields exactly the images under `f` of the values in `R`. -/
def Realizes {α β : Type} (o : Option β) (R : α → Prop) (f : α → β) : Prop :=
  ∀ y, o = some y ↔ ∃ x, R x ∧ f x = y

section
variable {α β γ : Type} {o : Option β} {R R' : α → Prop} {f : α → β}

theorem Realizes.of_eq (o' : Option α) (h : ∀ x, R x ↔ o' = some x) (ho : o = o'.map f) :
    Realizes o R f := by
  intro y
  rw [ho, Option.map_eq_some_iff]
  apply exists_congr
  intro x
  rw [h x]

theorem Realizes.of_none (ho : o = none) (h : ∀ x, ¬R x) : Realizes o R f := by
  intro y
  rw [ho]
  constructor
  · intro hy
    cases hy
  · rintro ⟨x, hx, -⟩
    exact absurd hx (h x)

theorem Realizes.congr (h : Realizes o R f) (hR : ∀ x, R' x ↔ R x) : Realizes o R' f := by
  intro y
  rw [h y]
  apply exists_congr
  intro x
  rw [hR x]

theorem Realizes.map (h : Realizes o R f) (g : β → γ) : Realizes (o.map g) R (fun x => g (f x)) := by
  intro z
  rw [Option.map_eq_some_iff]
  constructor
  · rintro ⟨y, hy, rfl⟩
    obtain ⟨x, hx, rfl⟩ := (h y).mp hy
    exact ⟨x, hx, rfl⟩
  · rintro ⟨x, hx, rfl⟩
    exact ⟨f x, (h _).mpr ⟨x, hx, rfl⟩, rfl⟩

theorem Realizes.eq_some (h : Realizes o R f) {x : α} (hx : R x) : o = some (f x) :=
  (h _).mpr ⟨x, hx, rfl⟩

theorem Realizes.isSome_iff (h : Realizes o R f) : o.isSome ↔ ∃ x, R x := by
  rw [Option.isSome_iff_exists]
  constructor
  · rintro ⟨y, hy⟩
    obtain ⟨x, hx, -⟩ := (h y).mp hy
    exact ⟨x, hx⟩
  · rintro ⟨x, hx⟩
    exact ⟨f x, h.eq_some hx⟩

/-- The sum of two alternatives that a test tells apart. -/
theorem Realizes.option {p : Prop} [Decidable p] {none' : β} {some' : β → β}
    (h : ¬p → Realizes o R f) :
    Realizes (if p then some none' else o.map some')
      (fun x : Option α => x.elim p fun x => ¬p ∧ R x)
      (fun x : Option α => x.elim none' fun x => some' (f x)) := by
  intro y
  split_ifs with hp
  · constructor
    · intro hy
      exact ⟨none, hp, Option.some.inj hy⟩
    · rintro ⟨x, hx, rfl⟩
      cases x with
      | none => rfl
      | some x => exact absurd hp hx.1
  · rw [(h hp).map some' y]
    constructor
    · rintro ⟨x, hx, rfl⟩
      exact ⟨some x, ⟨hp, hx⟩, rfl⟩
    · rintro ⟨x, hx, rfl⟩
      cases x with
      | none => exact absurd hx hp
      | some x => exact ⟨x, hx.2, rfl⟩

end

section
variable {n : ℕ} {α β : Fin n → Type} {o : (i : Fin n) → Option (β i)}
  {R : (i : Fin n) → α i → Prop} {f : (i : Fin n) → α i → β i}

theorem collect_eq_none {i : Fin n} (h : o i = none) : collect o = none := by
  cases hcollect : collect o with
  | none => rfl
  | some y =>
    have hi := collect_eq_some.mp hcollect i
    rw [h] at hi
    cases hi

/-- Parts that are decoded one by one. -/
theorem Realizes.collect (h : ∀ i, Realizes (o i) (R i) (f i)) :
    Realizes (collect o) (fun x : (i : Fin n) → α i => ∀ i, R i (x i)) fun x i => f i (x i) := by
  intro y
  rw [collect_eq_some]
  constructor
  · intro hy
    choose x hx using fun i => (h i (y i)).mp (hy i)
    exact ⟨x, fun i => (hx i).1, funext fun i => (hx i).2⟩
  · rintro ⟨x, hx, rfl⟩ i
    exact (h i).eq_some (hx i)

end

end Control
