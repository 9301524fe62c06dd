import ZeroSchema.Library.Outcome
import Mathlib.Data.List.Forall2
import Mathlib.Data.List.Induction

/-! A pass over a finite family, in order, that stops at the first fault. What it keeps on the way
is a function of how far it has come. -/
namespace Control

/-- Takes every index in increasing order. -/
def pass {ε σ : Type} {n : ℕ} (step : σ → Fin n → Outcome ε σ) (start : σ) : Outcome ε σ :=
  (List.finRange n).foldlM step start

/-- The first fault of a family. -/
def firstFault {ε : Type} {n : ℕ} (blame : Fin n → Option ε) : Option ε :=
  (List.finRange n).findSome? blame

/-- The index that a pass keeps when a later one replaces it: the last with the property. -/
def lastIndex {n : ℕ} (P : Fin n → Prop) [DecidablePred P] : Option (Fin n) :=
  (List.finRange n).foldl (fun found i => if P i then some i else found) none

theorem lastIndex_eq_some {n : ℕ} {P : Fin n → Prop} [DecidablePred P] {t : Fin n} :
    lastIndex P = some t ↔ P t ∧ ∀ s > t, ¬P s := by
  have main (l : List (Fin n)) (hl : l.Pairwise (· < ·)) :
      l.foldl (fun found i => if P i then some i else found) none = some t ↔
        t ∈ l ∧ P t ∧ ∀ s ∈ l, t < s → ¬P s := by
    induction l using List.reverseRecOn with
    | nil => simp
    | append_singleton l i ih =>
      rw [List.pairwise_append] at hl
      obtain ⟨hl, -, hlast⟩ := hl
      have hbefore (s : Fin n) (hs : s ∈ l) : s < i := hlast s hs i (by simp)
      rw [List.foldl_append]
      show (if P i then some i else _) = some t ↔ _
      split_ifs with hi
      · constructor
        · intro h
          obtain rfl := Option.some.inj h
          refine ⟨by simp, hi, ?_⟩
          intro s hs hlt
          rcases List.mem_append.mp hs with hs | hs
          · exact absurd hlt (hbefore s hs).asymm
          · exact absurd hlt (by simp [List.mem_singleton.mp hs])
        · intro ⟨ht, _, hnone⟩
          rcases List.mem_append.mp ht with ht | ht
          · exact absurd hi (hnone i (by simp) (hbefore t ht))
          · rw [List.mem_singleton.mp ht]
      · rw [ih hl]
        constructor
        · intro ⟨ht, hP, hnone⟩
          refine ⟨List.mem_append_left _ ht, hP, ?_⟩
          intro s hs hlt
          rcases List.mem_append.mp hs with hs | hs
          · exact hnone s hs hlt
          · rw [List.mem_singleton.mp hs]
            exact hi
        · intro ⟨ht, hP, hnone⟩
          rcases List.mem_append.mp ht with ht | ht
          · exact ⟨ht, hP, fun s hs hlt => hnone s (List.mem_append_left _ hs) hlt⟩
          · rw [List.mem_singleton.mp ht] at hP
            exact absurd hP hi
  unfold lastIndex
  rw [main _ (List.pairwise_lt_finRange n)]
  simp

section
variable {ε σ : Type} {n : ℕ}

private theorem pass_succ {step : σ → Fin (n + 1) → Outcome ε σ} {start : σ} :
    pass step start = (step start 0 >>= pass fun state i => step state i.succ) := by
  unfold pass
  rw [List.finRange_succ, List.foldlM_cons]
  simp only [List.foldlM_map]

private theorem firstFault_succ {blame : Fin (n + 1) → Option ε} :
    firstFault blame = (blame 0).or (firstFault fun i => blame i.succ) := by
  unfold firstFault
  rw [List.finRange_succ, List.findSome?_cons, List.findSome?_map]
  cases blame 0 <;> rfl

theorem firstFault_eq_none {blame : Fin n → Option ε} :
    firstFault blame = none ↔ ∀ i, blame i = none := by
  simp [firstFault]

theorem firstFault_eq_some {blame : Fin n → Option ε} {e : ε} :
    firstFault blame = some e ↔ ∃ i, blame i = some e ∧ ∀ j < i, blame j = none := by
  induction n with
  | zero =>
    have hempty : ¬∃ i, blame i = some e ∧ ∀ j < i, blame j = none := fun ⟨i, _⟩ => i.elim0
    exact iff_of_false (by simp [firstFault]) hempty
  | succ n ih =>
    rw [firstFault_succ, Fin.exists_fin_succ]
    cases h0 : blame 0 with
    | none => simp [ih, h0, Fin.forall_fin_succ]
    | some e' => simp [h0, Fin.forall_fin_succ]

/-- When each step goes on to the next state or reports its fault, the pass ends in the last state
or reports the first fault of all. -/
theorem pass_eq {step : σ → Fin n → Outcome ε σ} {after : ℕ → σ} {blame : Fin n → Option ε}
    (hstep : ∀ i, (∀ j < i, blame j = none) →
      step (after i) i = (blame i).elim (.ok (after (i + 1))) .err) :
    pass step (after 0) = (firstFault blame).elim (.ok (after n)) .err := by
  induction n generalizing after with
  | zero => rfl
  | succ n ih =>
    have hfirst : step (after 0) 0 = (blame 0).elim (.ok (after 1)) .err :=
      hstep 0 fun j hj => absurd hj (Fin.not_lt_zero j)
    rw [pass_succ, firstFault_succ, hfirst]
    cases h0 : blame 0 with
    | some e => rfl
    | none =>
      rw [Option.elim_none, Outcome.ok_bind, Option.none_or]
      have hrest (i : Fin n) (hbefore : ∀ j < i, blame j.succ = none) :
          step (after (i + 1)) i.succ = (blame i.succ).elim (.ok (after (i + 1 + 1))) .err := by
        refine hstep i.succ ?_
        intro j hj
        cases j using Fin.cases with
        | zero => exact h0
        | succ j => exact hbefore j (Fin.succ_lt_succ_iff.mp hj)
      exact @ih (fun state i => step state i.succ) (fun k => after (k + 1))
        (fun i => blame i.succ) hrest

end

/-- A pass that gathers a value for each index and sees the values before it. -/
def gather {ε α : Type} {n : ℕ} (next : List α → Fin n → Except ε α) : Except ε (List α) :=
  (List.finRange n).foldlM (fun values i => (next values i).map fun a => values ++ [a]) []

section
variable {ε α : Type} {n : ℕ} {next : List α → Fin n → Except ε α}

private theorem bind_map_eq_ok {x : Except ε (List α)} {f : List α → Except ε α}
    {values : List α} :
    (x >>= fun init => (f init).map fun a => init ++ [a]) = .ok values ↔
      ∃ init a, x = .ok init ∧ f init = .ok a ∧ values = init ++ [a] := by
  cases x with
  | error e => exact iff_of_false (by simp [bind, Except.bind]) (by simp)
  | ok init =>
    cases hf : f init with
    | error e =>
      refine iff_of_false ?_ (by simp [hf])
      show (f init).map _ ≠ .ok values
      rw [hf]
      simp [Except.map]
    | ok a =>
      have hmap : (f init).map (fun a => init ++ [a]) = .ok (init ++ [a]) := by
        rw [hf]
        rfl
      show (f init).map (fun a => init ++ [a]) = .ok values ↔ _
      rw [hmap]
      simp [hf, eq_comm]

private theorem gather_succ {next : List α → Fin (n + 1) → Except ε α} :
    gather next = (gather fun values i => next values i.castSucc) >>= fun values =>
      (next values (Fin.last n)).map fun a => values ++ [a] := by
  unfold gather
  rw [List.finRange_succ_last, List.foldlM_append, List.foldlM_map]
  simp

/-- A value is gathered for every index, next to the values before it. -/
theorem gather_eq_ok {values : List α} : gather next = .ok values ↔
    values.length = n ∧ ∀ i : Fin n, ∃ a, values[i.val]? = some a ∧
      next (values.take i) i = .ok a := by
  induction n generalizing values with
  | zero =>
    have hempty : gather next = .ok [] := rfl
    rw [hempty, Except.ok.injEq]
    constructor
    · intro h
      exact ⟨by rw [← h]; rfl, fun i => i.elim0⟩
    · intro h
      exact (List.length_eq_zero_iff.mp h.1).symm
  | succ n ih =>
    rw [gather_succ]
    constructor
    · intro h
      obtain ⟨init, a, hinit, hlast, rfl⟩ := bind_map_eq_ok.mp h
      obtain ⟨hlength, hnext⟩ := ih.mp hinit
      refine ⟨by simp [hlength], ?_⟩
      intro i
      cases i using Fin.lastCases with
      | last =>
        refine ⟨a, by simp [← hlength], ?_⟩
        rw [Fin.val_last, List.take_left' hlength]
        exact hlast
      | cast i =>
        have hi : i.val < init.length := hlength ▸ i.isLt
        obtain ⟨b, hb, hnextb⟩ := hnext i
        refine ⟨b, ?_, ?_⟩
        · rw [Fin.val_castSucc, List.getElem?_append_left hi]
          exact hb
        · rw [Fin.val_castSucc, List.take_append_of_le_length (Nat.le_of_lt hi)]
          exact hnextb
    · intro ⟨hlength, hnext⟩
      rcases List.eq_nil_or_concat values with rfl | ⟨init, a, rfl⟩
      · cases hlength
      · simp only [List.concat_eq_append] at hlength hnext ⊢
        rw [List.length_append, List.length_singleton, Nat.add_right_cancel_iff] at hlength
        have hinit : gather (fun values i => next values i.castSucc) = .ok init := by
          refine ih.mpr ⟨hlength, ?_⟩
          intro i
          have hi : i.val < init.length := hlength ▸ i.isLt
          obtain ⟨b, hb, hnextb⟩ := hnext i.castSucc
          rw [Fin.val_castSucc, List.getElem?_append_left hi] at hb
          rw [Fin.val_castSucc, List.take_append_of_le_length (Nat.le_of_lt hi)] at hnextb
          exact ⟨b, hb, hnextb⟩
        obtain ⟨b, hb, hlast⟩ := hnext (Fin.last n)
        rw [Fin.val_last, List.take_left' hlength] at hlast
        have heq : a = b := by simpa [← hlength] using hb
        exact bind_map_eq_ok.mpr ⟨init, a, hinit, heq ▸ hlast, rfl⟩

/-- The fault of a gathering pass is that of the first index without a value. -/
theorem gather_eq_error {e : ε} : gather next = .error e ↔
    ∃ i : Fin n, ∃ values : List α, values.length = i ∧ next values i = .error e ∧
      ∀ j < i, ∃ a, values[j.val]? = some a ∧ next (values.take j) j = .ok a := by
  induction n with
  | zero =>
    have hempty : gather next = .ok [] := rfl
    rw [hempty]
    exact iff_of_false (by simp) fun ⟨i, _⟩ => i.elim0
  | succ n ih =>
    have hstep : gather next = .error e ↔
        gather (fun values i => next values i.castSucc) = .error e ∨
        ∃ init, gather (fun values i => next values i.castSucc) = .ok init ∧
          next init (Fin.last n) = .error e := by
      rw [gather_succ]
      cases gather fun values i => next values i.castSucc with
      | error e' => simp [bind, Except.bind]
      | ok init =>
        show (next init (Fin.last n)).map _ = .error e ↔ _
        cases hlast : next init (Fin.last n) <;> simp [Except.map, hlast]
    rw [hstep]
    constructor
    · intro h
      rcases h with h | ⟨init, hinit, hlast⟩
      · obtain ⟨i, values, hlength, herror, hbefore⟩ := ih.mp h
        refine ⟨i.castSucc, values, hlength, herror, ?_⟩
        intro j hj
        have hjn : j.val < n := Nat.lt_trans hj i.isLt
        exact hbefore ⟨j, hjn⟩ hj
      · obtain ⟨hlength, hnext⟩ := gather_eq_ok.mp hinit
        refine ⟨Fin.last n, init, hlength, hlast, ?_⟩
        intro j hj
        exact hnext ⟨j, hj⟩
    · intro ⟨i, values, hlength, herror, hbefore⟩
      cases i using Fin.lastCases with
      | last =>
        have hinit : gather (fun values i => next values i.castSucc) = .ok values := by
          refine gather_eq_ok.mpr ⟨hlength, ?_⟩
          intro j
          exact hbefore j.castSucc (Fin.castSucc_lt_last j)
        exact Or.inr ⟨values, hinit, herror⟩
      | cast i =>
        left
        refine ih.mpr ⟨i, values, hlength, herror, ?_⟩
        intro j hj
        exact hbefore j.castSucc hj

end

/-- No value repeats when none is among those before it. -/
theorem nodup_iff_take {α : Type} {values : List α} :
    values.Nodup ↔ ∀ i a, values[i]? = some a → a ∉ values.take i := by
  induction values using List.reverseRecOn with
  | nil => simp
  | append_singleton values b ih =>
    rw [List.nodup_append, ih]
    constructor
    · intro ⟨hbefore, _, hapart⟩ i a ha
      by_cases hi : i < values.length
      · rw [List.getElem?_append_left hi] at ha
        rw [List.take_append_of_le_length (Nat.le_of_lt hi)]
        exact hbefore i a ha
      · have hlast : i = values.length := by
          have hlt : i < (values ++ [b]).length := (List.getElem?_eq_some_iff.mp ha).1
          simp only [List.length_append, List.length_singleton] at hlt
          omega
        have hab : b = a := by simpa [hlast] using ha
        rw [hlast, List.take_left, ← hab]
        intro hmem
        exact hapart b hmem b (by simp) rfl
    · intro h
      have hlast := h values.length b (by simp)
      rw [List.take_left] at hlast
      refine ⟨?_, List.nodup_singleton b, ?_⟩
      · intro i a ha
        have hi : i < values.length := (List.getElem?_eq_some_iff.mp ha).1
        have hnot := h i a (by rw [List.getElem?_append_left hi]; exact ha)
        rwa [List.take_append_of_le_length (Nat.le_of_lt hi)] at hnot
      · intro a ha c hc hac
        rw [List.mem_singleton.mp hc] at hac
        exact hlast (hac ▸ ha)

theorem mapM_eq_ok {ε α β : Type} {f : α → Except ε β} {items : List α} {values : List β} :
    items.mapM f = .ok values ↔ List.Forall₂ (fun item v => f item = .ok v) items values := by
  induction items generalizing values with
  | nil =>
    rw [List.mapM_nil, List.forall₂_nil_left_iff]
    constructor
    · intro h
      exact (Except.ok.inj h).symm
    · intro h
      rw [h]
      rfl
  | cons item items ih =>
    rw [List.mapM_cons, List.forall₂_cons_left_iff]
    cases hv : f item with
    | error e =>
      refine iff_of_false ?_ (by simp)
      intro h
      cases h
    | ok v =>
      cases hvs : items.mapM f with
      | error e =>
        refine iff_of_false ?_ ?_
        · intro h
          cases h
        · intro ⟨_, vs, _, hforall, _⟩
          rw [ih.mpr hforall] at hvs
          cases hvs
      | ok vs =>
        show Except.ok (v :: vs) = .ok values ↔ _
        constructor
        · intro h
          exact ⟨v, vs, rfl, ih.mp hvs, (Except.ok.inj h).symm⟩
        · intro ⟨v', vs', hv', hforall, heq⟩
          obtain rfl := Except.ok.inj hv'
          obtain rfl := Except.ok.inj (hvs.symm.trans (ih.mpr hforall))
          rw [heq]

/-- Collects the results of a family in order. -/
def each {ε α : Type} : {n : ℕ} → (Fin n → Outcome ε α) → Outcome ε (Fin n → α)
  | 0, _ => .ok Fin.elim0
  | _ + 1, f => do
    let head ← f 0
    let rest ← each fun i => f i.succ
    .ok (Fin.cons head rest)

theorem each_eq_ok {ε α : Type} {n : ℕ} {f : Fin n → Outcome ε α} {values : Fin n → α} :
    each f = .ok values ↔ ∀ i, f i = .ok (values i) := by
  induction n with
  | zero =>
    have hunique : (Fin.elim0 : Fin 0 → α) = values := Subsingleton.elim _ _
    exact iff_of_true (congrArg Outcome.ok hunique) fun i => i.elim0
  | succ n ih =>
    unfold each
    simp only [Outcome.bind_eq_ok, ih, Outcome.ok.injEq, Fin.forall_fin_succ]
    constructor
    · intro ⟨head, hhead, rest, hrest, heq⟩
      rw [← heq]
      exact ⟨hhead, hrest⟩
    · intro ⟨hhead, hrest⟩
      exact ⟨values 0, hhead, fun i => values i.succ, hrest, Fin.cons_self_tail values⟩

namespace Outcome
variable {ε ε' α β : Type} {P : ε → Prop} {x : Outcome ε α}

/-- A result whose error, if it is one, has the property. -/
def Only (P : ε → Prop) : Outcome ε α → Prop
  | ok _ => True
  | err e => P e
  | unreachable => False

theorem Only.bind {f : α → Outcome ε β} (hx : x.Only P) (hf : ∀ a, x = ok a → (f a).Only P) :
    (x >>= f).Only P := by
  cases x with
  | ok a => exact hf a rfl
  | err e => exact hx
  | unreachable => exact hx

theorem Only.mono {Q : ε → Prop} (h : x.Only P) (hPQ : ∀ e, P e → Q e) : x.Only Q := by
  cases x with
  | ok a => trivial
  | err e => exact hPQ e h
  | unreachable => exact h

theorem Only.mapErr {P : ε' → Prop} {f : ε → ε'} (h : x.Only fun e => P (f e)) :
    (x.mapErr f).Only P := by
  cases x with
  | ok a => trivial
  | err e => exact h
  | unreachable => exact h

theorem Only.of_ofExcept {x : Except ε α} (h : ∀ e, P e) : (ofExcept x).Only P := by
  cases x with
  | ok a => trivial
  | error e => exact h e

end Outcome

section
variable {ε σ ι : Type} {step : σ → ι → Outcome ε σ} {I : σ → Prop} {items : List ι}

/-- What every step keeps, a run over a list keeps. -/
theorem Outcome.foldlM_keeps {start after : σ} (hstart : I start)
    (hstep : ∀ s, I s → ∀ item ∈ items, ∀ next, step s item = .ok next → I next)
    (h : items.foldlM step start = .ok after) : I after := by
  induction items generalizing start with
  | nil => exact Outcome.ok.inj h ▸ hstart
  | cons item items ih =>
    rw [List.foldlM_cons] at h
    obtain ⟨next, hnext, h⟩ := Outcome.bind_eq_ok.mp h
    have hstart' : I next := hstep start hstart item List.mem_cons_self next hnext
    refine ih hstart' ?_ h
    intro s hs item' hitem'
    exact hstep s hs item' (List.mem_cons_of_mem item hitem')

theorem Outcome.Only.foldlM {P : ε → Prop} {start : σ} (hstart : I start)
    (hstep : ∀ s, I s → ∀ item ∈ items, ∀ next, step s item = .ok next → I next)
    (honly : ∀ s, I s → ∀ item ∈ items, (step s item).Only P) :
    (items.foldlM step start).Only P := by
  induction items generalizing start with
  | nil => trivial
  | cons item items ih =>
    rw [List.foldlM_cons]
    refine Outcome.Only.bind (honly start hstart item List.mem_cons_self) fun next hnext => ?_
    refine ih (hstep start hstart item List.mem_cons_self next hnext) ?_ ?_
    · intro s hs item' hitem'
      exact hstep s hs item' (List.mem_cons_of_mem item hitem')
    · intro s hs item' hitem'
      exact honly s hs item' (List.mem_cons_of_mem item hitem')

end

theorem Outcome.Only.each {ε α : Type} {P : ε → Prop} {n : ℕ} {f : Fin n → Outcome ε α}
    (h : ∀ i, (f i).Only P) : (each f).Only P := by
  induction n with
  | zero => trivial
  | succ n ih =>
    refine Outcome.Only.bind (h 0) fun head _ => ?_
    exact Outcome.Only.bind (ih fun i => h i.succ) fun rest _ => trivial

end Control
