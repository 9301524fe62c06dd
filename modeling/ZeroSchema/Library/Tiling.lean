import Mathlib.Data.List.FinRange
import Mathlib.Data.List.Count

/-! Lists of ranges of positions that tile an interval, and the rule for loops that accumulate
over an index range. -/
namespace Storage

/-- Half-open ranges of positions. -/
class Ranged (R : Type) where
  start : R → ℕ
  stop : R → ℕ

section
variable {R : Type} [Ranged R]

/-- How many of the ranges a position lies in. -/
def hits (l : List R) (k : ℕ) : ℕ := l.countP fun r => Ranged.start r ≤ k ∧ k < Ranged.stop r

/-- Every position of the interval lies in exactly one range, and no other one in any. -/
def Tiles (l : List R) (a b : ℕ) : Prop := ∀ k, hits l k = if a ≤ k ∧ k < b then 1 else 0

variable {l l' : List R} {a b c k : ℕ} {r : R}

@[simp] theorem hits_nil : hits ([] : List R) k = 0 := rfl

@[simp] theorem hits_append : hits (l ++ l') k = hits l k + hits l' k := List.countP_append

theorem hits_cons :
    hits (r :: l) k = hits l k + if Ranged.start r ≤ k ∧ k < Ranged.stop r then 1 else 0 := by
  unfold hits
  rw [List.countP_cons]
  simp

theorem hits_pos : 0 < hits l k ↔ ∃ r ∈ l, Ranged.start r ≤ k ∧ k < Ranged.stop r := by
  unfold hits
  rw [List.countP_pos_iff]
  simp

theorem hits_perm (h : l.Perm l') : hits l k = hits l' k := h.countP_eq _

theorem Tiles.congr (h : Tiles l a b) (hl : ∀ k, hits l k = hits l' k) : Tiles l' a b := by
  intro k
  rw [← hl k]
  exact h k

theorem Tiles.perm (h : Tiles l a b) (hperm : l.Perm l') : Tiles l' a b :=
  h.congr fun _ => hits_perm hperm

theorem tiles_nil : Tiles ([] : List R) a a := by
  intro k
  rw [hits_nil, if_neg (by omega)]

theorem tiles_singleton : Tiles [r] (Ranged.start r) (Ranged.stop r) := by
  intro k
  rw [hits_cons, hits_nil, Nat.zero_add]

theorem Tiles.append (h : Tiles l a b) (h' : Tiles l' b c) (hab : a ≤ b) (hbc : b ≤ c) :
    Tiles (l ++ l') a c := by
  intro k
  rw [hits_append, h k, h' k]
  split_ifs <;> omega

end

/-- A loop over an index range keeps an invariant that counts the steps. -/
theorem foldl_finRange {σ : Type} {n : ℕ} (step : σ → Fin n → σ) (s : σ) (P : ℕ → σ → Prop)
    (h0 : P 0 s) (hstep : ∀ (i : Fin n) t, P i t → P (i + 1) (step t i)) :
    P n ((List.finRange n).foldl step s) := by
  have main (k : ℕ) (hk : k ≤ n) : P k (((List.finRange n).take k).foldl step s) := by
    induction k with
    | zero => exact h0
    | succ k ih =>
      have hlen : k < (List.finRange n).length := by
        rw [List.length_finRange]
        exact hk
      rw [List.take_succ_eq_append_getElem hlen, List.foldl_append]
      have hget : (List.finRange n)[k] = ⟨k, hk⟩ := by simp
      rw [hget]
      exact hstep ⟨k, hk⟩ _ (ih (Nat.le_of_succ_le hk))
  have hall := main n le_rfl
  rwa [List.take_of_length_le (by rw [List.length_finRange])] at hall

end Storage
