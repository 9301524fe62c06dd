import ZeroSchema.Library.Loop

/-! Stores that hold one encoded value. A setter checks a value before it writes anything, and a
reader recovers it from the part of the store that it occupies. -/
namespace Control

section
variable {σ κ β α ε ρ : Type}

/-- The result and the store that is left; `none` is a panic of the write. -/
def checkedWrite (check : Except ε Unit) (write : σ → Option σ) (s : σ) :
    Option (Except ε Unit × σ) :=
  match check with
  | .ok () => (write s).map fun s => (.ok (), s)
  | .error e => some (.error e, s)

/-- The laws of a setter and a reader of one store: `fits` says which values can be stored,
`writes` where a value is put, and `reads` what the reader looks at. -/
structure RoundTrip (view : σ → κ → β) (set : σ → α → Option (Except ε Unit × σ))
    (prove : σ → Outcome ρ α) (fits : α → Prop) (writes : α → Set κ) (reads : σ → Set κ) :
    Prop where
  total : ∀ s v, set s v ≠ none
  succeeds : ∀ s v, (∃ s', set s v = some (.ok (), s')) ↔ fits v
  returns : ∀ s v s', set s v = some (.ok (), s') → prove s' = .ok v
  frame : ∀ s v s', set s v = some (.ok (), s') → AgreeOn view (writes v)ᶜ s s'
  unchanged : ∀ s v s' e, set s v = some (.error e, s') → s' = s
  depends : ∀ s s', AgreeOn view (reads s) s s' → prove s' = prove s

variable {view : σ → κ → β} {set : σ → α → Option (Except ε Unit × σ)} {prove : σ → Outcome ρ α}
  {fits : α → Prop} {writes : α → Set κ} {reads : σ → Set κ}

theorem checkedWrite_ok {check : Except ε Unit} {write : σ → Option σ} {s s' : σ} :
    checkedWrite check write s = some (.ok (), s') ↔ check = .ok () ∧ write s = some s' := by
  unfold checkedWrite
  cases check with
  | ok u => simp
  | error e => simp

/-- Another presentation of the store. -/
theorem checkedWrite_map {σ' : Type} {check : Except ε Unit} {write : σ → Option σ}
    {write' : σ' → Option σ'} {f : σ → σ'} {s : σ} (h : (write s).map f = write' (f s)) :
    (checkedWrite check write s).map (fun out => (out.1, f out.2)) =
      checkedWrite check write' (f s) := by
  unfold checkedWrite
  cases check with
  | error e => rfl
  | ok u =>
    show Option.map _ (Option.map _ (write s)) = Option.map _ (write' (f s))
    rw [← h, Option.map_map, Option.map_map]
    rfl

/-- A check that is exact and a write that cannot panic behind it. -/
theorem RoundTrip.of_checkedWrite (check : α → Except ε Unit) (write : α → σ → Option σ)
    (hset : ∀ s v, set s v = checkedWrite (check v) (write v) s)
    (hcheck : ∀ v, check v = .ok () ↔ fits v)
    (hwrite : ∀ s v, fits v → ∃ s', write v s = some s' ∧ prove s' = .ok v ∧
      AgreeOn view (writes v)ᶜ s s')
    (hreads : ∀ s s', AgreeOn view (reads s) s s' → prove s' = prove s) :
    RoundTrip view set prove fits writes reads := by
  have hdone {s : σ} {v : α} {s' : σ} (h : set s v = some (.ok (), s')) :
      prove s' = .ok v ∧ AgreeOn view (writes v)ᶜ s s' := by
    rw [hset, checkedWrite_ok] at h
    obtain ⟨out, hout, hlaws⟩ := hwrite s v ((hcheck v).mp h.1)
    have heq : out = s' := Option.some.inj (hout.symm.trans h.2)
    rwa [heq] at hlaws
  constructor
  · intro s v hnone
    rw [hset] at hnone
    unfold checkedWrite at hnone
    cases hv : check v with
    | ok u =>
      obtain ⟨out, hout, -⟩ := hwrite s v ((hcheck v).mp hv)
      rw [hv, hout] at hnone
      cases hnone
    | error e =>
      rw [hv] at hnone
      cases hnone
  · intro s v
    constructor
    · rintro ⟨s', h⟩
      rw [hset, checkedWrite_ok] at h
      exact (hcheck v).mp h.1
    · intro hfits
      obtain ⟨out, hout, -⟩ := hwrite s v hfits
      refine ⟨out, ?_⟩
      rw [hset, checkedWrite_ok]
      exact ⟨(hcheck v).mpr hfits, hout⟩
  · intro s v s' h
    exact (hdone h).1
  · intro s v s' h
    exact (hdone h).2
  · intro s v s' e h
    rw [hset] at h
    unfold checkedWrite at h
    cases hv : check v with
    | ok u =>
      rw [hv] at h
      obtain ⟨out, -, h⟩ := Option.map_eq_some_iff.mp h
      cases h
    | error e =>
      rw [hv] at h
      cases h
      rfl
  · exact hreads

end

end Control
