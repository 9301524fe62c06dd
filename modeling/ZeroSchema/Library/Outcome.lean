import Mathlib.Data.List.FinRange
import Mathlib.Data.Fintype.Basic

/-! Results of code that may return a value, return an error, or reach a branch
its author declared unreachable, with the rules for running such code in loops. -/
namespace Control

/-- A result, a reported error, or a branch that was declared unreachable. -/
inductive Outcome (ε α : Type)
  | ok (a : α)
  | err (e : ε)
  | unreachable
deriving DecidableEq

namespace Outcome
variable {ε ε' α β : Type}

def bind (x : Outcome ε α) (f : α → Outcome ε β) : Outcome ε β :=
  match x with
  | ok a => f a
  | err e => err e
  | unreachable => unreachable

instance : Monad (Outcome ε) where
  pure := ok
  bind := bind

def mapErr (f : ε → ε') : Outcome ε α → Outcome ε' α
  | ok a => ok a
  | err e => err (f e)
  | unreachable => unreachable

def ofExcept : Except ε α → Outcome ε α
  | .ok a => ok a
  | .error e => err e

/-- A value the caller knows to exist. -/
def expect : Option α → Outcome ε α
  | some a => ok a
  | none => unreachable

def isOk : Outcome ε α → Bool
  | ok _ => true
  | _ => false

/-- The value alone: code that asserts success cannot tell an error from a panic. -/
def value? : Outcome ε α → Option α
  | ok a => some a
  | _ => none

@[simp] theorem pure_eq (a : α) : (pure a : Outcome ε α) = ok a := rfl
@[simp] theorem ok_bind (a : α) (f : α → Outcome ε β) : (ok a >>= f) = f a := rfl
@[simp] theorem err_bind (e : ε) (f : α → Outcome ε β) : (err e >>= f) = err e := rfl
@[simp] theorem unreachable_bind (f : α → Outcome ε β) :
    ((unreachable : Outcome ε α) >>= f) = unreachable := rfl

@[simp] theorem mapErr_ok (f : ε → ε') (a : α) : mapErr f (ok a) = ok a := rfl
@[simp] theorem mapErr_err (f : ε → ε') (e : ε) : (err e : Outcome ε α).mapErr f = err (f e) := rfl
@[simp] theorem mapErr_unreachable (f : ε → ε') :
    (unreachable : Outcome ε α).mapErr f = unreachable := rfl
@[simp] theorem value?_ok (a : α) : (ok a : Outcome ε α).value? = some a := rfl
@[simp] theorem ofExcept_ok (a : α) : ofExcept (.ok a : Except ε α) = ok a := rfl
@[simp] theorem expect_some (a : α) : (expect (some a) : Outcome ε α) = ok a := rfl
@[simp] theorem isOk_ok (a : α) : (ok a : Outcome ε α).isOk = true := rfl
@[simp] theorem isOk_err (e : ε) : (err e : Outcome ε α).isOk = false := rfl
@[simp] theorem isOk_unreachable : (unreachable : Outcome ε α).isOk = false := rfl

theorem bind_eq_ok {x : Outcome ε α} {f : α → Outcome ε β} {b : β} :
    (x >>= f) = ok b ↔ ∃ a, x = ok a ∧ f a = ok b := by
  cases x <;> simp

@[simp] theorem mapErr_eq_ok {f : ε → ε'} {x : Outcome ε α} {a : α} :
    x.mapErr f = ok a ↔ x = ok a := by
  cases x <;> simp

theorem mapErr_eq_err {f : ε → ε'} {x : Outcome ε α} {e : ε'} :
    x.mapErr f = err e ↔ ∃ e₀, x = err e₀ ∧ f e₀ = e := by
  cases x <;> simp

@[simp] theorem expect_eq_ok {x : Option α} {a : α} :
    (expect x : Outcome ε α) = ok a ↔ x = some a := by
  cases x <;> simp [expect]

theorem value?_eq_some {x : Outcome ε α} {a : α} : x.value? = some a ↔ x = ok a := by
  cases x <;> simp [value?]

end Outcome

/-- Runs the checks `0, 1, …, n - 1` in increasing order and stops at the first failure. -/
def forEach {ε : Type} (n : ℕ) (check : Fin n → Outcome ε Unit) : Outcome ε Unit :=
  (List.finRange n).foldlM (fun _ i => check i) ()

section forEach
variable {ε : Type} {n : ℕ} {check : Fin n → Outcome ε Unit}

private theorem foldlM_eq_ok (l : List (Fin n)) :
    l.foldlM (fun _ i => check i) () = .ok () ↔ ∀ i ∈ l, check i = .ok () := by
  induction l with
  | nil => simp
  | cons i l ih =>
    rw [List.foldlM_cons, Outcome.bind_eq_ok]
    constructor
    · rintro ⟨u, hi, hl⟩
      exact List.forall_mem_cons.mpr ⟨hi, ih.mp hl⟩
    · intro h
      exact ⟨(), h i List.mem_cons_self, ih.mpr fun j hj => h j (List.mem_cons_of_mem i hj)⟩

theorem forEach_eq_ok : forEach n check = .ok () ↔ ∀ i, check i = .ok () := by
  simp [forEach, foldlM_eq_ok]

private theorem forEach_succ {check : Fin (n + 1) → Outcome ε Unit} :
    forEach (n + 1) check = (check 0 >>= fun _ => forEach n fun i => check i.succ) := by
  rw [forEach, List.finRange_succ, List.foldlM_cons]
  simp only [List.foldlM_map]
  rfl

/-- A loop fails with the error of the first check that fails. -/
theorem forEach_eq_err {check : Fin n → Outcome ε Unit} {e : ε} :
    forEach n check = .err e ↔ ∃ i, check i = .err e ∧ ∀ j < i, check j = .ok () := by
  induction n with
  | zero =>
    have hempty : ¬∃ i, check i = .err e ∧ ∀ j < i, check j = .ok () := fun ⟨i, _⟩ => i.elim0
    exact iff_of_false (by simp [forEach]) hempty
  | succ n ih =>
    rw [forEach_succ]
    cases h0 : check 0 with
    | ok u =>
      rw [Outcome.ok_bind, ih, Fin.exists_fin_succ]
      simp [h0, Fin.forall_fin_succ]
    | err e' =>
      rw [Outcome.err_bind, Fin.exists_fin_succ]
      simp [h0, Fin.forall_fin_succ]
    | unreachable =>
      rw [Outcome.unreachable_bind, Fin.exists_fin_succ]
      simp [h0, Fin.forall_fin_succ]

theorem forEach_ne_unreachable (h : ∀ i, check i ≠ .unreachable) :
    forEach n check ≠ .unreachable := by
  have main (l : List (Fin n)) : l.foldlM (fun _ i => check i) () ≠ .unreachable := by
    induction l with
    | nil => simp
    | cons i l ih =>
      rw [List.foldlM_cons]
      cases hi : check i with
      | ok u => exact ih
      | err e => simp
      | unreachable => exact absurd hi (h i)
  exact main _

end forEach

/-- A check never ends in an unreachable branch, and where it succeeds so does what it
guards: the contract between the two passes of a write. -/
def Agree {ε β : Type} (check : Outcome ε Unit) (result : Option β) : Prop :=
  check ≠ .unreachable ∧ (check = .ok () → ∃ b, result = some b)

section Agree
variable {ε ε' α β : Type}

theorem Agree.of_ok {check : Outcome ε Unit} {b : β} (h : check = .ok ()) :
    Agree check (some b) := by
  subst h
  exact ⟨by simp, fun _ => ⟨b, rfl⟩⟩

theorem Agree.of_err {check : Outcome ε Unit} {e : ε} {result : Option β} (h : check = .err e) :
    Agree check result := by
  subst h
  exact ⟨by simp, by simp⟩

theorem Agree.map {check : Outcome ε Unit} {result : Option α} (f : α → β)
    (h : Agree check result) : Agree check (result.map f) := by
  refine ⟨h.1, fun hok => ?_⟩
  obtain ⟨a, ha⟩ := h.2 hok
  exact ⟨f a, by rw [ha]; rfl⟩

theorem Agree.mapErr {check : Outcome ε Unit} {result : Option β} (f : ε → ε')
    (h : Agree check result) : Agree (check.mapErr f) result := by
  cases check with
  | ok u => exact ⟨by simp, fun _ => h.2 rfl⟩
  | err e => exact Agree.of_err (Outcome.mapErr_err f e)
  | unreachable => exact absurd rfl h.1

end Agree

/-- Reports the first of the given errors. -/
def firstErr {ε : Type} : List ε → Outcome ε Unit
  | [] => .ok ()
  | e :: _ => .err e

section firstErr
variable {ε ε' : Type}

theorem firstErr_eq_ok {l : List ε} : firstErr l = .ok () ↔ l = [] := by
  cases l <;> simp [firstErr]

theorem mapErr_firstErr (f : ε → ε') (l : List ε) :
    (firstErr l).mapErr f = firstErr (l.map f) := by
  cases l <;> rfl

theorem firstErr_append (l m : List ε) :
    firstErr (l ++ m) = (firstErr l >>= fun _ => firstErr m) := by
  cases l <;> rfl

/-- A loop over checks that report their first errors reports the first error of them all. -/
theorem forEach_eq_firstErr {n : ℕ} {check : Fin n → Outcome ε Unit} {errors : Fin n → List ε}
    (h : ∀ i, check i = firstErr (errors i)) :
    forEach n check = firstErr ((List.finRange n).flatMap errors) := by
  have main : ∀ l : List (Fin n),
      l.foldlM (fun _ i => check i) () = firstErr (l.flatMap errors) := by
    intro l
    induction l with
    | nil => rfl
    | cons i l ih =>
      rw [List.foldlM_cons, List.flatMap_cons, firstErr_append, h i]
      exact congrArg _ (funext fun _ => ih)
  exact main _

end firstErr

/-- Every value of a finite family, or nothing when one of them is missing. -/
def collect {n : ℕ} {α : Fin n → Type} (f : (i : Fin n) → Option (α i)) :
    Option ((i : Fin n) → α i) :=
  if h : ∀ i, (f i).isSome then some fun i => (f i).get (h i) else none

theorem collect_eq_some {n : ℕ} {α : Fin n → Type} {f : (i : Fin n) → Option (α i)}
    {v : (i : Fin n) → α i} : collect f = some v ↔ ∀ i, f i = some (v i) := by
  unfold collect
  split_ifs with h
  · constructor
    · intro hv i
      have hi := congrFun (Option.some.inj hv) i
      rw [← hi, Option.some_get]
    · intro hv
      congr 1
      funext i
      simp [hv i]
  · simp only [false_iff]
    intro hv
    exact h fun i => by simp [hv i]

end Control
