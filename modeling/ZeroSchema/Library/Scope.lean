import Mathlib.Data.Nat.Notation
import Mathlib.Data.List.Nodup
import Mathlib.Data.List.Perm.Subperm

/-! Names under binders. A name stands for the innermost frame that binds it, or it is free; a
renaming of the free names keeps clear of the frames. -/
namespace Scope

/-- What a name stands for: a frame counted from the innermost and a name of it, or a free thing. -/
inductive Referent (α : Type)
  | bound (frame : ℕ) (name : String)
  | free (value : α)
deriving DecidableEq

/-- The names that the enclosing binders bind, innermost first. -/
abbrev Frames : Type := List (List String)

def Frames.Bound (frames : Frames) (name : String) : Prop := ∃ frame ∈ frames, name ∈ frame

instance (frames : Frames) (name : String) : Decidable (frames.Bound name) :=
  inferInstanceAs (Decidable (∃ frame ∈ frames, name ∈ frame))

/-- The innermost frame that binds a name. -/
def Frames.depth (frames : Frames) (name : String) : ℕ :=
  frames.findIdx fun frame => decide (name ∈ frame)

section
variable {α : Type} {frames : Frames} {name : String}

def refer (values : String → α) (frames : Frames) (name : String) : Referent α :=
  if frames.Bound name then .bound (frames.depth name) name else .free (values name)

/-- Renames the free names. -/
def shield (rename : String → String) (frames : Frames) (name : String) : String :=
  if frames.Bound name then name else rename name

theorem Frames.bound_cons {frame : List String} :
    Frames.Bound (frame :: frames) name ↔ name ∈ frame ∨ frames.Bound name := by
  simp [Frames.Bound]

theorem Frames.not_bound_nil : ¬Frames.Bound [] name := by
  simp [Frames.Bound]

theorem refer_of_bound (values : String → α) (h : frames.Bound name) :
    refer values frames name = .bound (frames.depth name) name := if_pos h

theorem refer_of_free (values : String → α) (h : ¬frames.Bound name) :
    refer values frames name = .free (values name) := if_neg h

/-- A renaming that captures nothing renames what the free names stand for. -/
theorem refer_shield (values : String → α) (rename : String → String)
    (h : ¬frames.Bound name → ¬frames.Bound (rename name)) :
    refer values frames (shield rename frames name) =
      refer (fun name => values (rename name)) frames name := by
  unfold shield
  by_cases hbound : frames.Bound name
  · rw [if_pos hbound, refer_of_bound _ hbound, refer_of_bound _ hbound]
  · rw [if_neg hbound, refer_of_free _ (h hbound), refer_of_free _ hbound]

end

/-! ### Fresh names -/

section
variable {α : Type} [DecidableEq α]

/-- The first candidate from `k` on that is not used, if one of the next `fuel` candidates is. -/
def search (candidate : ℕ → α) (used : List α) : ℕ → ℕ → Option ℕ
  | 0, _ => none
  | fuel + 1, k => if candidate k ∈ used then search candidate used fuel (k + 1) else some k

variable {candidate : ℕ → α} {used : List α}

theorem search_eq_some {fuel k n : ℕ} (h : search candidate used fuel k = some n) :
    k ≤ n ∧ candidate n ∉ used ∧ ∀ j, k ≤ j → j < n → candidate j ∈ used := by
  induction fuel generalizing k with
  | zero => cases h
  | succ fuel ih =>
    unfold search at h
    split_ifs at h with hused
    · obtain ⟨hle, hfree, hbefore⟩ := ih h
      refine ⟨by omega, hfree, ?_⟩
      intro j hj hjn
      by_cases hjk : j = k
      · rwa [hjk]
      · exact hbefore j (by omega) hjn
    · obtain rfl := Option.some.inj h
      exact ⟨Nat.le_refl k, hused, fun j hj hjn => absurd hj (by omega)⟩

theorem search_eq_none {fuel k : ℕ} (h : search candidate used fuel k = none) :
    ∀ j, k ≤ j → j < k + fuel → candidate j ∈ used := by
  induction fuel generalizing k with
  | zero =>
    intro j hj hlt
    omega
  | succ fuel ih =>
    unfold search at h
    split_ifs at h with hused
    intro j hj hlt
    by_cases hjk : j = k
    · rwa [hjk]
    · exact ih h j (by omega) (by omega)

/-- Of more candidates than there are used names, one is free; the search returns the first. -/
theorem exists_search (hinj : Function.Injective candidate) :
    ∃ n, search candidate used (used.length + 1) 0 = some n := by
  cases h : search candidate used (used.length + 1) 0 with
  | some n => exact ⟨n, rfl⟩
  | none =>
    have hall := search_eq_none h
    have hsubset : (List.range (used.length + 1)).map candidate ⊆ used := by
      intro a ha
      obtain ⟨j, hj, rfl⟩ := List.mem_map.mp ha
      exact hall j (Nat.zero_le j) (by simpa using hj)
    have hnodup : ((List.range (used.length + 1)).map candidate).Nodup :=
      List.nodup_range.map hinj
    have hle := (List.subperm_of_subset hnodup hsubset).length_le
    rw [List.length_map, List.length_range] at hle
    omega

end

end Scope
