import Mathlib.Logic.Function.Basic

/-! Parties that act on one state in turn. Where the acts of different parties commute, the
outcome of a schedule is determined by what each of the parties does in it. -/
namespace Control

/-- An act gives an answer and leaves a state; `none` is a failure. -/
abbrev Act (σ ρ : Type) : Type := σ → Option (ρ × σ)

namespace Act
variable {σ τ υ ρ ρ' : Type}

/-- Each act answers as it does without the other one, and both orders leave one state. -/
def Commute (f : Act σ ρ) (g : Act σ ρ') (s : σ) : Prop :=
  ∃ a t b u v, f s = some (a, t) ∧ g s = some (b, u) ∧ g t = some (b, v) ∧ f u = some (a, v)

theorem Commute.symm {f : Act σ ρ} {g : Act σ ρ'} {s : σ} (h : Commute f g s) :
    Commute g f s := by
  obtain ⟨a, t, b, u, v, hf, hg, hg', hf'⟩ := h
  exact ⟨b, u, a, t, v, hg, hf, hf', hg'⟩

/-- An act that changes nothing, neither before nor after the other one. -/
theorem Commute.idle {f : Act σ ρ} {g : Act σ ρ'} {s u : σ} {a : ρ} {b : ρ'}
    (hf : f s = some (a, s)) (hg : g s = some (b, u)) (hf' : f u = some (a, u)) :
    Commute f g s := ⟨a, s, b, u, u, hf, hg, hg, hf'⟩

/-- Acts on a part of a state commute as they do on the part. -/
theorem Commute.lift {f : Act τ ρ} {g : Act τ ρ'} {F : Act σ ρ} {G : Act σ ρ'} {lift : τ → σ}
    {Q : τ → Prop} (hf : ∀ y a z, Q y → f y = some (a, z) → Q z)
    (hg : ∀ y a z, Q y → g y = some (a, z) → Q z)
    (hF : ∀ y, Q y → F (lift y) = (f y).map (Prod.map id lift))
    (hG : ∀ y, Q y → G (lift y) = (g y).map (Prod.map id lift)) {x : τ} (hx : Q x)
    (h : Commute f g x) : Commute F G (lift x) := by
  obtain ⟨a, t, b, u, v, hft, hgu, hgv, hfv⟩ := h
  refine ⟨a, lift t, b, lift u, lift v, ?_, ?_, ?_, ?_⟩
  · rw [hF x hx, hft]
    rfl
  · rw [hG x hx, hgu]
    rfl
  · rw [hG t (hf x a t hx hft), hgv]
    rfl
  · rw [hF u (hg x b u hx hgu), hfv]
    rfl

/-- Acts on two separate parts of a state commute. -/
theorem Commute.both {f : Act τ ρ} {g : Act υ ρ'} {F : Act σ ρ} {G : Act σ ρ'}
    {both : τ → υ → σ} {Q : τ → Prop} {R : υ → Prop} {x x' : τ} {y y' : υ} {a : ρ} {b : ρ'}
    (hF : ∀ x y, Q x → R y → F (both x y) = (f x).map (Prod.map id (both · y)))
    (hG : ∀ x y, Q x → R y → G (both x y) = (g y).map (Prod.map id (both x)))
    (hx : Q x) (hx' : Q x') (hy : R y) (hy' : R y') (hf : f x = some (a, x'))
    (hg : g y = some (b, y')) : Commute F G (both x y) := by
  refine ⟨a, both x' y, b, both x y', both x' y', ?_, ?_, ?_, ?_⟩
  · rw [hF x y hx hy, hf]
    rfl
  · rw [hG x y hx hy, hg]
    rfl
  · rw [hG x' y hx' hy, hg]
    rfl
  · rw [hF x y' hx hy', hf]
    rfl

end Act

section Party
variable {κ : Type} [DecidableEq κ] {A : κ → Type} {j k : κ}

/-- What one party contributes to a sequence. -/
def partyOf (k : κ) : List (Σ k, A k) → List (A k)
  | [] => []
  | ⟨j, a⟩ :: rest => if h : j = k then (h ▸ a) :: partyOf k rest else partyOf k rest

@[simp] theorem partyOf_cons_self (a : A k) (l : List (Σ k, A k)) :
    partyOf k (⟨k, a⟩ :: l) = a :: partyOf k l := by
  simp [partyOf]

theorem partyOf_cons_ne (h : j ≠ k) (a : A j) (l : List (Σ k, A k)) :
    partyOf k (⟨j, a⟩ :: l) = partyOf k l := by
  simp [partyOf, h]

@[simp] theorem partyOf_append (l l' : List (Σ k, A k)) :
    partyOf k (l ++ l') = partyOf k l ++ partyOf k l' := by
  induction l with
  | nil => rfl
  | cons e l ih =>
    obtain ⟨j, a⟩ := e
    by_cases h : j = k
    · subst h
      simp [ih]
    · simp [partyOf_cons_ne h, ih]

@[simp] theorem partyOf_map_self (as : List (A k)) :
    partyOf k (as.map fun a => (⟨k, a⟩ : Σ k, A k)) = as := by
  induction as with
  | nil => rfl
  | cons a as ih => simp [ih]

theorem partyOf_map_ne (h : j ≠ k) (as : List (A j)) :
    partyOf k (as.map fun a => (⟨j, a⟩ : Σ k, A k)) = [] := by
  induction as with
  | nil => rfl
  | cons a as ih => simp [partyOf_cons_ne h, ih]

/-- The sequence without one of the parties. -/
def without (k : κ) (l : List (Σ k, A k)) : List (Σ k, A k) := l.filter fun e => e.1 ≠ k

theorem partyOf_without_self (l : List (Σ k, A k)) : partyOf k (without k l) = [] := by
  induction l with
  | nil => rfl
  | cons e l ih =>
    obtain ⟨j, a⟩ := e
    by_cases h : j = k
    · simpa [without, h] using ih
    · have hcons : without k (⟨j, a⟩ :: l) = ⟨j, a⟩ :: without k l := by simp [without, h]
      rw [hcons, partyOf_cons_ne h, ih]

theorem partyOf_without_ne (h : j ≠ k) (l : List (Σ k, A k)) :
    partyOf j (without k l) = partyOf j l := by
  induction l with
  | nil => rfl
  | cons e l ih =>
    obtain ⟨i, a⟩ := e
    by_cases hi : i = k
    · subst hi
      rw [partyOf_cons_ne (Ne.symm h), ← ih]
      simp [without]
    · have hcons : without k (⟨i, a⟩ :: l) = ⟨i, a⟩ :: without k l := by simp [without, hi]
      rw [hcons]
      by_cases hij : i = j
      · subst hij
        simp [ih]
      · rw [partyOf_cons_ne hij, partyOf_cons_ne hij, ih]

/-- Where a party's first contribution stands. -/
theorem exists_split_of_partyOf {l : List (Σ k, A k)} {a : A k} {as : List (A k)}
    (h : partyOf k l = a :: as) :
    ∃ before after, l = before ++ ⟨k, a⟩ :: after ∧ partyOf k before = [] := by
  induction l with
  | nil => cases h
  | cons e l ih =>
    obtain ⟨j, b⟩ := e
    by_cases hj : j = k
    · subst hj
      rw [partyOf_cons_self] at h
      obtain rfl := (List.cons.inj h).1
      exact ⟨[], l, rfl, rfl⟩
    · rw [partyOf_cons_ne hj] at h
      obtain ⟨before, after, rfl, hbefore⟩ := ih h
      exact ⟨⟨j, b⟩ :: before, after, rfl, by rw [partyOf_cons_ne hj, hbefore]⟩

theorem eq_nil_of_partyOf {l : List (Σ k, A k)} (h : ∀ k, partyOf k l = []) : l = [] := by
  cases l with
  | nil => rfl
  | cons e l =>
    have hself := h e.1
    rw [partyOf_cons_self] at hself
    cases hself

end Party

section Schedule
variable {σ κ : Type} [DecidableEq κ] {A ρ : κ → Type} (act : ∀ k, A k → Act σ (ρ k))

/-- Runs a schedule, which says who acts next and how; the answers come with their parties. -/
def runSchedule : List (Σ k, A k) → σ → Option (List (Σ k, ρ k) × σ)
  | [], s => some ([], s)
  | ⟨k, m⟩ :: rest, s => do
    let (a, t) ← act k m s
    let (answers, u) ← runSchedule rest t
    some (⟨k, a⟩ :: answers, u)

/-- The acts of different parties commute in all the states that the acts lead to. -/
structure Independent (P : σ → Prop) : Prop where
  keeps : ∀ k m s, P s → ∃ a t, act k m s = some (a, t) ∧ P t
  commute : ∀ j k, j ≠ k → ∀ m n s, P s → Act.Commute (act j m) (act k n) s

/-- Two schedules give every party the same answers and leave the same state. -/
def SameOutcome (P : σ → Prop) (l l' : List (Σ k, A k)) : Prop :=
  ∀ s, P s → ∃ x y t, runSchedule act l s = some (x, t) ∧ runSchedule act l' s = some (y, t) ∧
    P t ∧ ∀ k, partyOf k x = partyOf k y

variable {act} {P : σ → Prop} {l l' l'' : List (Σ k, A k)}

omit [DecidableEq κ] in
theorem runSchedule_cons {k : κ} {m : A k} {s t : σ} {a : ρ k} (h : act k m s = some (a, t)) :
    runSchedule act (⟨k, m⟩ :: l) s =
      (runSchedule act l t).map fun r => (⟨k, a⟩ :: r.1, r.2) := by
  rw [runSchedule, h]
  change (runSchedule act l t >>= _) = _
  cases runSchedule act l t <;> rfl

omit [DecidableEq κ] in
theorem runSchedule_append {s t : σ} {x : List (Σ k, ρ k)}
    (h : runSchedule act l s = some (x, t)) :
    runSchedule act (l ++ l') s = (runSchedule act l' t).map fun r => (x ++ r.1, r.2) := by
  induction l generalizing s x with
  | nil =>
    obtain ⟨rfl, rfl⟩ : [] = x ∧ s = t := by simpa [runSchedule] using h
    simp
  | cons e l ih =>
    obtain ⟨k, m⟩ := e
    obtain ⟨⟨a, u⟩, hact, h⟩ := Option.bind_eq_some_iff.mp h
    obtain ⟨⟨y, v⟩, hrest, h⟩ := Option.bind_eq_some_iff.mp h
    obtain ⟨rfl, rfl⟩ : ⟨k, a⟩ :: y = x ∧ v = t := by simpa using h
    rw [List.cons_append, runSchedule_cons hact, ih hrest, Option.map_map]
    rfl

/-- A party that does not act gets no answer. -/
theorem partyOf_answers {k : κ} {s t : σ} {x : List (Σ k, ρ k)}
    (h : runSchedule act l s = some (x, t)) (hl : partyOf k l = []) : partyOf k x = [] := by
  induction l generalizing s x with
  | nil =>
    obtain ⟨rfl, -⟩ : [] = x ∧ s = t := by simpa [runSchedule] using h
    rfl
  | cons e l ih =>
    obtain ⟨j, m⟩ := e
    obtain ⟨⟨a, u⟩, -, h⟩ := Option.bind_eq_some_iff.mp h
    obtain ⟨⟨y, v⟩, hrest, h⟩ := Option.bind_eq_some_iff.mp h
    obtain ⟨rfl, rfl⟩ : ⟨j, a⟩ :: y = x ∧ v = t := by simpa using h
    by_cases hj : j = k
    · subst hj
      rw [partyOf_cons_self] at hl
      cases hl
    · rw [partyOf_cons_ne hj] at hl ⊢
      exact ih hrest hl

namespace SameOutcome

theorem trans (h : SameOutcome act P l l') (h' : SameOutcome act P l' l'') :
    SameOutcome act P l l'' := by
  intro s hs
  obtain ⟨x, y, t, hx, hy, ht, hxy⟩ := h s hs
  obtain ⟨y', z, t', hy', hz, -, hyz⟩ := h' s hs
  obtain ⟨rfl, rfl⟩ : y = y' ∧ t = t' := by simpa using hy.symm.trans hy'
  exact ⟨x, z, t, hx, hz, ht, fun k => (hxy k).trans (hyz k)⟩

theorem symm (h : SameOutcome act P l l') : SameOutcome act P l' l := by
  intro s hs
  obtain ⟨x, y, t, hx, hy, ht, hxy⟩ := h s hs
  exact ⟨y, x, t, hy, hx, ht, fun k => (hxy k).symm⟩

theorem cons (hi : Independent act P) (k : κ) (m : A k) (h : SameOutcome act P l l') :
    SameOutcome act P (⟨k, m⟩ :: l) (⟨k, m⟩ :: l') := by
  intro s hs
  obtain ⟨a, t, hact, ht⟩ := hi.keeps k m s hs
  obtain ⟨x, y, u, hx, hy, hu, hxy⟩ := h t ht
  refine ⟨⟨k, a⟩ :: x, ⟨k, a⟩ :: y, u, ?_, ?_, hu, fun j => ?_⟩
  · rw [runSchedule_cons hact, hx]
    rfl
  · rw [runSchedule_cons hact, hy]
    rfl
  · by_cases hj : k = j
    · subst hj
      simp [hxy]
    · rw [partyOf_cons_ne hj, partyOf_cons_ne hj, hxy]

theorem refl (hi : Independent act P) (l : List (Σ k, A k)) : SameOutcome act P l l := by
  induction l with
  | nil => exact fun s hs => ⟨[], [], s, rfl, rfl, hs, fun _ => rfl⟩
  | cons e l ih => exact ih.cons hi e.1 e.2

theorem swap (hi : Independent act P) {j k : κ} (hjk : j ≠ k) (m : A j) (n : A k)
    (l : List (Σ k, A k)) :
    SameOutcome act P (⟨j, m⟩ :: ⟨k, n⟩ :: l) (⟨k, n⟩ :: ⟨j, m⟩ :: l) := by
  intro s hs
  obtain ⟨a, t, b, u, v, hm, hn, hn', hm'⟩ := hi.commute j k hjk m n s hs
  obtain ⟨a', t', hm'', ht⟩ := hi.keeps j m s hs
  obtain ⟨rfl, rfl⟩ : a = a' ∧ t = t' := by simpa using hm.symm.trans hm''
  obtain ⟨b', v', hn'', hv⟩ := hi.keeps k n t ht
  obtain ⟨rfl, rfl⟩ : b = b' ∧ v = v' := by simpa using hn'.symm.trans hn''
  obtain ⟨x, -, w, hx, -, hw, -⟩ := refl hi l v hv
  refine ⟨⟨j, a⟩ :: ⟨k, b⟩ :: x, ⟨k, b⟩ :: ⟨j, a⟩ :: x, w, ?_, ?_, hw, fun i => ?_⟩
  · rw [runSchedule_cons hm, runSchedule_cons hn', hx]
    rfl
  · rw [runSchedule_cons hn, runSchedule_cons hm', hx]
    rfl
  · by_cases hj : j = i
    · subst hj
      rw [partyOf_cons_self, partyOf_cons_ne hjk.symm, partyOf_cons_ne hjk.symm, partyOf_cons_self]
    · rw [partyOf_cons_ne hj]
      by_cases hk : k = i
      · subst hk
        rw [partyOf_cons_self, partyOf_cons_self, partyOf_cons_ne hj]
      · rw [partyOf_cons_ne hk, partyOf_cons_ne hk, partyOf_cons_ne hj]

/-- An act may be made earlier, past the acts of others. -/
theorem move (hi : Independent act P) {k : κ} (m : A k) {before after : List (Σ k, A k)}
    (h : partyOf k before = []) :
    SameOutcome act P (before ++ ⟨k, m⟩ :: after) (⟨k, m⟩ :: (before ++ after)) := by
  induction before with
  | nil => exact refl hi _
  | cons e before ih =>
    obtain ⟨j, n⟩ := e
    by_cases hj : j = k
    · subst hj
      rw [partyOf_cons_self] at h
      cases h
    · rw [partyOf_cons_ne hj] at h
      exact ((ih h).cons hi j n).trans (swap hi hj n m _)

end SameOutcome

/-- Schedules in which every party does the same have the same outcome. -/
theorem Independent.sameOutcome (hi : Independent act P)
    (h : ∀ k, partyOf k l = partyOf k l') : SameOutcome act P l l' := by
  induction l generalizing l' with
  | nil =>
    obtain rfl : l' = [] := eq_nil_of_partyOf fun k => (h k).symm
    exact SameOutcome.refl hi []
  | cons e l ih =>
    obtain ⟨k, m⟩ := e
    have hk := h k
    rw [partyOf_cons_self] at hk
    obtain ⟨before, after, rfl, hbefore⟩ := exists_split_of_partyOf hk.symm
    refine ((ih fun j => ?_).cons hi k m).trans (SameOutcome.move hi m hbefore).symm
    have hj := h j
    rw [partyOf_append] at hj ⊢
    by_cases hkj : k = j
    · subst hkj
      rw [partyOf_cons_self, partyOf_cons_self, hbefore] at hj
      rw [hbefore]
      exact (List.cons.inj hj).2
    · rwa [partyOf_cons_ne hkj, partyOf_cons_ne hkj] at hj

/-- A party gets the answers that it gets when it acts alone. -/
theorem Independent.alone (hi : Independent act P) (k : κ) {s : σ} (hs : P s)
    (l : List (Σ k, A k)) :
    ∃ x t y u, runSchedule act l s = some (x, t) ∧
      runSchedule act ((partyOf k l).map fun m => ⟨k, m⟩) s = some (y, u) ∧
      partyOf k x = partyOf k y := by
  have hsame (j : κ) :
      partyOf j l = partyOf j (((partyOf k l).map fun m => ⟨k, m⟩) ++ without k l) := by
    by_cases hj : k = j
    · subst hj
      simp [partyOf_without_self]
    · simp [partyOf_map_ne hj, partyOf_without_ne (Ne.symm hj)]
  obtain ⟨x, z, t, hx, hz, -, hxz⟩ := hi.sameOutcome hsame s hs
  obtain ⟨y, -, u, hy, -, hu, -⟩ :=
    SameOutcome.refl hi ((partyOf k l).map fun m => (⟨k, m⟩ : Σ k, A k)) s hs
  obtain ⟨w, -, v, hw, -, -, -⟩ := SameOutcome.refl hi (without k l) u hu
  refine ⟨x, t, y, u, hx, hy, ?_⟩
  rw [runSchedule_append hy, hw] at hz
  obtain ⟨rfl, -⟩ : y ++ w = z ∧ v = t := by simpa using hz
  have hnone : partyOf k w = [] := partyOf_answers hw (partyOf_without_self l)
  rw [hxz, partyOf_append, hnone, List.append_nil]

end Schedule

end Control
