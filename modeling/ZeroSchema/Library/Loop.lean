import ZeroSchema.Library.Outcome
import Mathlib.Data.Set.Lattice
import Mathlib.Order.CompletePartialOrder

/-! Update loops whose passes own separate parts of the state. A state is seen through its
observations `view s k`; pass `i` depends on those in `reads i` and changes at most those in
`writes i`. -/
namespace Control

/-- Runs the updates `0, 1, …, n - 1` in increasing order, stopping at the first panic. -/
def foldEach {σ : Type} (n : ℕ) (step : σ → Fin n → Option σ) (s : σ) : Option σ :=
  (List.finRange n).foldlM step s

/-- The two states look the same at every observation in `K`. -/
def AgreeOn {σ κ α : Type} (view : σ → κ → α) (K : Set κ) (s s' : σ) : Prop :=
  ∀ k ∈ K, view s' k = view s k

section AgreeOn
variable {σ κ α : Type} {view : σ → κ → α} {K L : Set κ} {s t u : σ}

theorem AgreeOn.refl : AgreeOn view K s s := fun _ _ => rfl

theorem AgreeOn.of_eq (h : s = t) : AgreeOn view K s t := fun k _ => by rw [h]

theorem AgreeOn.trans (h₁ : AgreeOn view K s t) (h₂ : AgreeOn view K t u) :
    AgreeOn view K s u := fun k hk => (h₂ k hk).trans (h₁ k hk)

theorem AgreeOn.mono (hK : L ⊆ K) (h : AgreeOn view K s t) : AgreeOn view L s t :=
  fun k hk => h k (hK hk)

end AgreeOn

section foldEach
variable {σ κ α : Type} {view : σ → κ → α} {n : ℕ} {reads writes : Fin n → Set κ}
  {step : σ → Fin n → Option σ} {post : Fin n → σ → Prop}

/-- The loop rule. No pass writes what another one reads, so every pass still sees its part of
the initial state. Then the loop completes, every pass's postcondition holds at the end, and
nothing that no pass writes has moved. -/
theorem foldEach_spec (hsep : ∀ i j, i ≠ j → Disjoint (reads i) (writes j))
    (hpost : ∀ i s s', AgreeOn view (reads i) s s' → post i s → post i s') {s : σ}
    (hstep : ∀ i t, AgreeOn view (reads i) s t → ∃ t', step t i = some t' ∧ post i t' ∧
      AgreeOn view (writes i)ᶜ t t') :
    ∃ s', foldEach n step s = some s' ∧ (∀ i, post i s') ∧
      AgreeOn view (⋃ i, writes i)ᶜ s s' := by
  have off (i j : Fin n) (hij : i ≠ j) : reads i ⊆ (writes j)ᶜ := fun k hk hk' =>
    Set.disjoint_left.mp (hsep i j hij) hk hk'
  have main : ∀ l : List (Fin n), l.Nodup → ∀ t, (∀ i ∈ l, AgreeOn view (reads i) s t) →
      ∃ t', l.foldlM step t = some t' ∧ (∀ i ∈ l, post i t') ∧
        ∀ K, (∀ i ∈ l, K ⊆ (writes i)ᶜ) → AgreeOn view K t t' := by
    intro l hl
    induction l with
    | nil => exact fun t _ => ⟨t, rfl, by simp, fun _ _ => AgreeOn.refl⟩
    | cons i l ih =>
      intro t ht
      rw [List.nodup_cons] at hl
      have ne (j : Fin n) (hj : j ∈ l) : j ≠ i := fun h => hl.1 (h ▸ hj)
      obtain ⟨u, hiu, hpu, htu⟩ := hstep i t (ht i List.mem_cons_self)
      have hu (j : Fin n) (hj : j ∈ l) : AgreeOn view (reads j) s u :=
        (ht j (List.mem_cons_of_mem i hj)).trans (htu.mono (off j i (ne j hj)))
      obtain ⟨w, hlw, hpw, huw⟩ := ih hl.2 u hu
      refine ⟨w, ?_, ?_, ?_⟩
      · simp [List.foldlM_cons, hiu, hlw]
      · rw [List.forall_mem_cons]
        exact ⟨hpost i u w (huw _ fun j hj => off i j (ne j hj).symm) hpu, hpw⟩
      · intro K hK
        exact (htu.mono (hK i List.mem_cons_self)).trans
          (huw K fun j hj => hK j (List.mem_cons_of_mem i hj))
  obtain ⟨s', hrun, hposts, hframe⟩ :=
    main _ (List.nodup_finRange n) s fun i _ => AgreeOn.refl
  refine ⟨s', hrun, fun i => hposts i (List.mem_finRange i), hframe _ fun i _ => ?_⟩
  exact Set.compl_subset_compl.mpr (Set.subset_iUnion writes i)

/-- The frame of a loop that ran: nothing has moved that no pass touched. A pass has to keep to
its part only from states that still show it what it reads. -/
theorem foldEach_frame (hsep : ∀ i j, i ≠ j → Disjoint (reads i) (writes j))
    {s s' : σ} (hstep : ∀ i t t', AgreeOn view (reads i) s t → step t i = some t' →
      AgreeOn view (writes i)ᶜ t t')
    (hrun : foldEach n step s = some s') : AgreeOn view (⋃ i, writes i)ᶜ s s' := by
  have off (i j : Fin n) (hij : i ≠ j) : reads i ⊆ (writes j)ᶜ := fun k hk hk' =>
    Set.disjoint_left.mp (hsep i j hij) hk hk'
  have hsub (i : Fin n) : (⋃ i, writes i)ᶜ ⊆ (writes i)ᶜ :=
    Set.compl_subset_compl.mpr (Set.subset_iUnion writes i)
  have main : ∀ l : List (Fin n), l.Nodup → ∀ t, (∀ i ∈ l, AgreeOn view (reads i) s t) →
      l.foldlM step t = some s' → AgreeOn view (⋃ i, writes i)ᶜ t s' := by
    intro l hl
    induction l with
    | nil =>
      intro t _ hrun
      obtain rfl := Option.some.inj hrun
      exact AgreeOn.refl
    | cons i l ih =>
      intro t ht hrun
      rw [List.nodup_cons] at hl
      rw [List.foldlM_cons] at hrun
      obtain ⟨u, hu, hrest⟩ := Option.bind_eq_some_iff.mp hrun
      have htu := hstep i t u (ht i List.mem_cons_self) hu
      have hreads (j : Fin n) (hj : j ∈ l) : AgreeOn view (reads j) s u := by
        have hji : j ≠ i := fun h => hl.1 (h ▸ hj)
        exact (ht j (List.mem_cons_of_mem i hj)).trans (htu.mono (off j i hji))
      exact (htu.mono (hsub i)).trans (ih hl.2 u hreads hrest)
  exact main _ (List.nodup_finRange n) s (fun _ _ => AgreeOn.refl) hrun

end foldEach

section drain
variable {σ α : Type}

/-- The items that an iterator yields in so many calls, up to its end; `none` is a panic. -/
def drain (next : σ → Option (Option α × σ)) : ℕ → σ → Option (List α)
  | 0, _ => some []
  | calls + 1, s => do
    let (item, s) ← next s
    match item with
    | none => some []
    | some a => (drain next calls s).map (a :: ·)

/-- An iterator that counts up to `n` and yields one item for each index. -/
theorem drain_count {n : ℕ} {next : ℕ → Option (Option α × ℕ)} {item : Fin n → α}
    (hitem : ∀ i : Fin n, next i = some (some (item i), (i : ℕ) + 1)) (hend : next n = some (none, n))
    (calls : ℕ) : drain next calls 0 = some ((List.ofFn item).take calls) := by
  have main : ∀ calls i, i ≤ n →
      drain next calls i = some (((List.ofFn item).drop i).take calls) := by
    intro calls
    induction calls with
    | zero =>
      intro i _
      rfl
    | succ calls ih =>
      intro i hi
      by_cases hlt : i < n
      · have hlen : i < (List.ofFn item).length := by rwa [List.length_ofFn]
        rw [drain, hitem ⟨i, hlt⟩, List.drop_eq_getElem_cons hlen]
        change (drain next calls (i + 1)).map _ = _
        rw [ih (i + 1) (by omega), List.take_succ_cons, List.getElem_ofFn]
        rfl
      · obtain rfl : i = n := by omega
        rw [drain, hend, List.drop_eq_nil_of_le (by rw [List.length_ofFn])]
        rfl
  exact main calls 0 (Nat.zero_le n)

end drain

end Control
