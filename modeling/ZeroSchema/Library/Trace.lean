import Mathlib.Data.List.Forall2

/-! Runs of calls on a state. A trace holds the result of every call together with the state
that the call leaves. -/
namespace Control

abbrev Trace (σ ρ : Type) : Type := List (ρ × σ)

namespace Trace
variable {σ τ ρ : Type}

/-- The state after all calls. -/
def final (s : σ) : Trace σ ρ → σ
  | [] => s
  | (_, t) :: rest => final t rest

/-- Every call goes from the state it is made in to the one it leaves by an allowed step. -/
def Steps (step : σ → ρ → σ → Prop) (s : σ) : Trace σ ρ → Prop
  | [] => True
  | (r, t) :: rest => step s r t ∧ Steps step t rest

/-- The states a run from a state goes through, that state included. -/
def Visits (s : σ) (x : Trace σ ρ) (t : σ) : Prop := t = s ∨ ∃ a ∈ x, a.2 = t

/-- Two runs of the same calls: the results are equal, and the states are related. -/
def Match (R : σ → τ → Prop) (x : Trace σ ρ) (y : Trace τ ρ) : Prop :=
  List.Forall₂ (fun a b => a.1 = b.1 ∧ R a.2 b.2) x y

/-- The same calls seen through an enclosing state. -/
def within (lift : τ → σ) (x : Trace τ ρ) : Trace σ ρ := x.map fun (r, t) => (r, lift t)

variable {step : σ → ρ → σ → Prop} {P : σ → Prop} {s : σ} {x y : Trace σ ρ}

theorem Steps.append (hx : Steps step s x) (hy : Steps step (final s x) y) :
    Steps step s (x ++ y) := by
  induction x generalizing s with
  | nil => exact hy
  | cons a x ih => exact ⟨hx.1, ih hx.2 hy⟩

theorem final_append : final s (x ++ y) = final (final s x) y := by
  induction x generalizing s with
  | nil => rfl
  | cons a x ih => exact ih

theorem final_of_forall (hs : P s) (hx : ∀ a ∈ x, P a.2) : P (final s x) := by
  induction x generalizing s with
  | nil => exact hs
  | cons a x ih =>
    exact ih (hx a List.mem_cons_self) fun b hb => hx b (List.mem_cons_of_mem a hb)

theorem Visits.of_forall {t : σ} (h : Visits s x t) (hs : P s) (hx : ∀ a ∈ x, P a.2) : P t := by
  rcases h with rfl | ⟨a, ha, rfl⟩
  · exact hs
  · exact hx a ha

theorem Steps.within {step' : τ → ρ → τ → Prop} {lift : τ → σ} {t : τ} {z : Trace τ ρ}
    (hlift : ∀ a r b, step' a r b → step (lift a) r (lift b)) (h : Steps step' t z) :
    Steps step (lift t) (z.within lift) := by
  induction z generalizing t with
  | nil => trivial
  | cons a z ih => exact ⟨hlift t a.1 a.2 h.1, ih h.2⟩

section Match
variable {R : σ → τ → Prop} {s' : τ} {x' y' : Trace τ ρ}

theorem Match.append (hx : Match R x x') (hy : Match R y y') : Match R (x ++ y) (x' ++ y') :=
  List.rel_append hx hy

theorem Match.final (hs : R s s') (hx : Match R x x') : R (final s x) (final s' x') := by
  induction hx generalizing s s' with
  | nil => exact hs
  | cons hab _ ih => exact ih hab.2

theorem Match.within {σ' τ' : Type} {R' : σ' → τ' → Prop} {lift : σ' → σ} {lift' : τ' → τ}
    {z : Trace σ' ρ} {z' : Trace τ' ρ} (hlift : ∀ a b, R' a b → R (lift a) (lift' b))
    (h : Match R' z z') : Match R (z.within lift) (z'.within lift') := by
  induction h with
  | nil => exact .nil
  | cons hab _ ih => exact .cons ⟨hab.1, hlift _ _ hab.2⟩ ih

/-- Two matching runs that each match a third are related through its states. -/
theorem Match.meet {υ : Type} {P : σ → υ → Prop} {Q : τ → υ → Prop} {z : Trace υ ρ}
    (h : Match R x x') (hx : Match P x z) (hx' : Match Q x' z) :
    Match (fun a b => R a b ∧ ∃ c, P a c ∧ Q b c) x x' := by
  induction h generalizing z with
  | nil => exact .nil
  | cons hab _ ih =>
    cases hx with
    | cons hac hx =>
      cases hx' with
      | cons hbc hx' => exact .cons ⟨hab.1, hab.2, _, hac.2, hbc.2⟩ (ih hx hx')

end Match

theorem within_id (z : Trace σ ρ) : z.within id = z := List.map_id z

theorem within_within {υ : Type} {inner : υ → τ} {lift : τ → σ} (z : Trace υ ρ) :
    (z.within inner).within lift = z.within (lift ∘ inner) := by
  simp [within]

theorem final_within (lift : τ → σ) (t : τ) (z : Trace τ ρ) :
    final (lift t) (z.within lift) = lift (final t z) := by
  induction z generalizing t with
  | nil => rfl
  | cons a z ih => exact ih a.2

theorem forall_within {lift : τ → σ} {z : Trace τ ρ} :
    (∀ a ∈ z.within lift, P a.2) ↔ ∀ a ∈ z, P (lift a.2) := by
  simp only [within, List.forall_mem_map]

end Trace

end Control
