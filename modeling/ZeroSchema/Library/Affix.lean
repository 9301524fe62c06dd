import Mathlib.Data.List.Nodup
import Mathlib.Data.Nat.Notation

/-! Names made of a stem and a fixed ending, and the lists of names that have no duplicates. -/
namespace Affix

theorem append_eq_append {a b x y : String} (h : a ++ x = b ++ y) :
    (∃ u, y = u ++ x ∧ a = b ++ u) ∨ ∃ u, x = u ++ y ∧ b = a ++ u := by
  have hlist : a.toList ++ x.toList = b.toList ++ y.toList := by
    rw [← String.toList_append, ← String.toList_append, h]
  rcases List.append_eq_append_iff.mp hlist with ⟨u, hb, hx⟩ | ⟨u, ha, hy⟩
  · refine Or.inr ⟨String.ofList u, ?_, ?_⟩ <;> apply String.toList_inj.mp <;> simpa
  · refine Or.inl ⟨String.ofList u, ?_, ?_⟩ <;> apply String.toList_inj.mp <;> simpa

theorem stem_unique {u w x y : String} (hu : y = u ++ x) (hw : w ++ x = y) : w = u :=
  (String.append_left_inj x).mp (hw.trans hu)

theorem stem_empty {u x y : String} (hu : y = u ++ x) (hxy : x = y) : u = "" :=
  (stem_unique hu (by rw [String.empty_append, hxy])).symm

/-- Neither text ends in the other. -/
def Apart (x y : String) : Prop := ¬x.toList <:+ y.toList ∧ ¬y.toList <:+ x.toList

instance (x y : String) : Decidable (Apart x y) :=
  inferInstanceAs (Decidable (¬x.toList <:+ y.toList ∧ ¬y.toList <:+ x.toList))

theorem suffix_of_append {u x y : String} (h : y = u ++ x) : x.toList <:+ y.toList :=
  ⟨u.toList, by rw [h, String.toList_append]⟩

/-- Names with endings apart are different, whatever their stems are. -/
theorem Apart.append_ne {x y : String} (h : Apart x y) (a b : String) : a ++ x ≠ b ++ y := by
  intro heq
  rcases append_eq_append heq with ⟨u, hu, -⟩ | ⟨u, hu, -⟩
  · exact h.1 (suffix_of_append hu)
  · exact h.2 (suffix_of_append hu)

/-- Names with endings that are pairwise apart have no duplicates. -/
theorem nodup_of_apart {l : List (String × String)} (h : (l.map Prod.snd).Pairwise Apart) :
    (l.map fun name => name.1 ++ name.2).Nodup := by
  rw [List.pairwise_map] at h
  exact List.pairwise_map.mpr (h.imp fun hapart => hapart.append_ne _ _)

theorem nodup_map_append {l : List String} (a : String) (h : l.Nodup) :
    (l.map (a ++ ·)).Nodup :=
  h.map fun _ _ heq => (String.append_right_inj a).mp heq

theorem toString_injective : Function.Injective (fun n : ℕ => toString n) := by
  intro m n h
  have hdigits : Nat.toDigits 10 m = Nat.toDigits 10 n := by
    have hlist := congrArg String.toList h
    simpa only [Nat.toString_eq_ofList_toDigits, String.toList_ofList] using hlist
  have hvalue := congrArg (Nat.ofDigitChars 10 · 0) hdigits
  simpa only [Nat.ofDigitChars_toDigits (by decide : 1 < 10) (by decide : 10 ≤ 10)] using hvalue

/-- Numbered names are different when their numbers are. -/
theorem numbered_injective (a x : String) :
    Function.Injective (fun n : ℕ => a ++ toString n ++ x) := by
  intro m n h
  have hstem := (String.append_left_inj x).mp h
  exact toString_injective ((String.append_right_inj a).mp hstem)

/-- Two texts for each of some things are the first texts of all and the second texts of some. -/
theorem flatMap_pair_perm {α β : Type} (l : List α) (f g : α → β) (skip : α → Bool) :
    (l.flatMap fun a => f a :: if skip a then [] else [g a]).Perm
      (l.map f ++ (l.filter fun a => !skip a).map g) := by
  induction l with
  | nil => exact List.Perm.nil
  | cons a l ih =>
    rw [List.flatMap_cons, List.map_cons, List.cons_append, List.cons_append]
    apply List.Perm.cons
    by_cases h : skip a = true
    · simp only [h, if_true, List.nil_append, Bool.not_true, List.filter_cons, Bool.false_eq_true,
        if_false]
      exact ih
    · simp only [h, Bool.false_eq_true, if_false, List.filter_cons, Bool.not_false, if_true,
        List.map_cons]
      exact (List.Perm.cons (g a) ih).trans List.perm_middle.symm

/-- Some of the names that a list was distinct from may stand around it. -/
theorem nodup_around {α : Type} {fixed l : List α} (h : (fixed ++ l).Nodup)
    (before after : List α) (hsub : ∀ a ∈ before ++ after, a ∈ fixed)
    (hnodup : (before ++ after).Nodup) :
    (before ++ (l ++ after)).Nodup := by
  have hl := List.nodup_append.mp h
  have hperm : (before ++ (l ++ after)).Perm ((before ++ after) ++ l) := by
    rw [List.append_assoc]
    exact List.Perm.append_left before List.perm_append_comm
  rw [hperm.nodup_iff, List.nodup_append]
  exact ⟨hnodup, hl.2.1, fun a ha b hb => hl.2.2 a (hsub a ha) b hb⟩

end Affix
