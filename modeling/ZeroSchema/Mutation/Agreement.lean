import ZeroSchema.Mutation.Patch

/-! The two passes of an engine agree: whatever the destination holds, a preflight stops at
no branch declared unreachable, and where it succeeds the commit runs to its end. -/
namespace ZeroSchema
open Storage Control

namespace Category

theorem agree_childFailure {β : Type} {check : Outcome SchemaError Unit} {result : Option β}
    (c : Category) (ctx : Context) (kind : ErrorKind) (h : Agree check result) :
    Agree (c.childFailure ctx kind check) result := by
  unfold childFailure
  split_ifs
  · exact h.mapErr _
  · exact h

theorem agree_requireComplete {β : Type} {check : Outcome SchemaError Unit} {result : Option β}
    {c : Category} {p : c.Patch} {initializing : Bool} {failure : SchemaError}
    (h : Agree check result) : Agree (c.requireComplete p initializing failure check) result := by
  unfold requireComplete
  split_ifs
  · exact Agree.of_err rfl
  · exact h

variable [Target]

theorem agree_string (s : StringIr) (ctx : Context) (input : Input s.wire) (v : s.Value) :
    Agree (s.preflight ctx input v) (s.commit input v) := by
  refine ⟨?_, fun hok => ?_⟩
  · rw [StringIr.preflight_eq]
    cases s.check v <;> simp [Context.onMutation]
  · obtain ⟨input', hrun, -⟩ := s.commit_spec input (StringIr.preflight_eq_ok.mp hok)
    exact ⟨input', hrun⟩

theorem provedTag_ne_unreachable {ir : StructIr} {fields : Fin ir.arity → Category}
    {input : Input (struct ir fields).wire} {t : Fin ir.arity} (ht : (fields t).tagEnum.isSome) :
    provedTag ir fields (fun i => prove (fields i)) input t ≠ .unreachable := by
  have key (c : Category) (hc : c.tagEnum.isSome) (ctx : Context) (selected : Input c.wire) :
      (do c.wrap ctx (prove c ctx 0 selected)
          Outcome.expect (c.loadTag selected.bytes)) ≠ Outcome.unreachable := by
    cases c with
    | tagSibling ir =>
      cases hload : ir.load selected.bytes <;>
        simp [wrap, ownsErrors, prove, loadTag, hload]
    | _ => cases hc
  rw [provedTag, selectField_eq]
  exact key (fields t) ht (ir.context t) (input.child (fieldPlace ir fields t))

theorem agree_subrangeMut {W F : Layout} {input : Input W} (place : Place W F)
    {check : Outcome SchemaError Unit} {commit : Input F → Option (Input F)}
    (h : Agree check (commit (input.child place))) :
    Agree check (input.subrangeMut F place.offset commit) := by
  rw [input.subrangeMut_place]
  exact h.map _

theorem agree_elements {element : Category} {n : ℕ} {input : Input (array element n).wire}
    {check : Fin n → Outcome SchemaError Unit}
    {commit : Fin n → Input element.wire → Option (Input element.wire)}
    (h : ∀ j, Agree (check j) (commit j (input.child (elementPlace element j)))) :
    Agree (forEach n check)
      (foldEach n (fun input j => commitElement element n j (commit j) input) input) := by
  refine ⟨forEach_ne_unreachable fun j => (h j).1, fun hok => ?_⟩
  obtain ⟨input', hrun, -⟩ := foldEach_elements commit (fun _ _ => True) fun j => by
    obtain ⟨child, hchild⟩ := (h j).2 (forEach_eq_ok.mp hok j)
    exact ⟨child, hchild, trivial⟩
  exact ⟨input', hrun⟩

section Record
variable {ir : StructIr} {fields : Fin ir.arity → Category} (initializing : Bool)
  (input : Input (struct ir fields).wire) {i t : Fin ir.arity}

/-- Reading the tag to start from reports an error or finds it. -/
theorem provedCurrent_cases (hlink : ir.Linked fields) (ht : ir.tagField i = some t) :
    (∃ e, provedCurrent ir fields initializing input t = .err e) ∨
    ∃ current, Current ir fields initializing input.bytes i current ∧
      provedCurrent ir fields initializing input t = .ok current := by
  cases hread : provedCurrent ir fields initializing input t with
  | ok current => exact Or.inr ⟨current, (provedCurrent_eq_ok ht).mp hread, rfl⟩
  | err e => exact Or.inl ⟨e, rfl⟩
  | unreachable =>
    cases initializing with
    | true => cases hread
    | false => exact absurd hread (provedTag_ne_unreachable (hlink.tagEnum_isSome ht))

theorem current_of_none (b : Bytes (struct ir fields).wire.size) (ht : ir.tagField i = none) :
    Current ir fields initializing b i 0 := by
  cases initializing with
  | true => rfl
  | false => exact tagAt_of_none ht b

/-- The commit of a field runs through where the commit of its value does. -/
theorem commitField_total (hlink : ir.Linked fields) (hi : (fields i).tagEnum = none)
    {s : Input (struct ir fields).wire} {target current : ℕ}
    {commit : Bool → Input (fields i).wire → Option (Input (fields i).wire)}
    (hlt : ∀ e, (fields i).payloadEnum = some e → target < e.arity)
    (hzero : (fields i).payloadEnum = none → target = 0)
    (hcurrent : Current ir fields initializing input.bytes i current)
    (hcommit : ∃ child, commit (initializing || decide (current ≠ target))
      (input.child (fieldPlace ir fields i)) = some child)
    (hchild : s.child (fieldPlace ir fields i) = input.child (fieldPlace ir fields i))
    (htag : tagAt ir fields s.bytes i = tagAt ir fields input.bytes i) :
    ∃ s', commitField ir fields initializing i target commit s = some s' ∧
      AgreeOn Input.view (fieldWrites ir fields i)ᶜ s s' := by
  obtain ⟨child, hrun⟩ := hcommit
  rw [← hchild] at hrun
  obtain ⟨s', hstep, -, -, hframe⟩ :=
    commitField_spec hlink hi commit hlt hzero (hcurrent.congr htag) hrun
  exact ⟨s', hstep, hframe⟩

variable {input} in
/-- The record loops agree when they do field by field. -/
theorem agree_fields (hlink : ir.Linked fields) {check : Fin ir.arity → Outcome SchemaError Unit}
    {step : Input (struct ir fields).wire → Fin ir.arity → Option (Input (struct ir fields).wire)}
    (hsibling : ∀ i, (fields i).tagEnum.isSome → check i = .ok () ∧ ∀ s, step s i = some s)
    (hfield : ∀ i, (fields i).tagEnum = none → check i ≠ .unreachable ∧
      (check i = .ok () → ∀ s : Input (struct ir fields).wire,
        s.child (fieldPlace ir fields i) = input.child (fieldPlace ir fields i) →
        tagAt ir fields s.bytes i = tagAt ir fields input.bytes i →
        ∃ s', step s i = some s' ∧ AgreeOn Input.view (fieldWrites ir fields i)ᶜ s s')) :
    Agree (forEach ir.arity check) (foldEach ir.arity step input) := by
  refine ⟨forEach_ne_unreachable fun i => ?_, fun hok => ?_⟩
  · cases hi : (fields i).tagEnum with
    | some e => simp [(hsibling i (by rw [hi]; rfl)).1]
    | none => exact (hfield i hi).1
  · obtain ⟨input', hrun, -⟩ := foldEach_fields hlink (fun _ _ _ => True)
      (fun i hi => (hsibling i hi).2) fun i hi s hchild htag => by
        obtain ⟨s', hstep, hframe⟩ := (hfield i hi).2 (forEach_eq_ok.mp hok i) s hchild htag
        exact ⟨s', hstep, trivial, hframe⟩
    exact ⟨input', hrun⟩

/-- What the check of a field can do: fail on its own, or check the value from a proved tag. -/
theorem preflightLogicalField_cases (hlink : ir.Linked fields) (hi : (fields i).tagEnum = none)
    (preflight : (i : Fin ir.arity) → Context → ℕ → Input (fields i).wire → (fields i).Logical →
      Outcome SchemaError Unit) (v : (struct ir fields).Logical) :
    (∃ e, preflightLogicalField ir fields preflight initializing input v i = .err e) ∨
    ∃ current, Current ir fields initializing input.bytes i current ∧
      preflightLogicalField ir fields preflight initializing input v i =
        (fields i).childFailure (ir.context i) .capacityExceeded
          (preflight i (ir.context i) current (input.child (fieldPlace ir fields i)) (v i)) := by
  have hskip : (fields i).tagEnum.isSome = false := by rw [hi]; rfl
  simp only [preflightLogicalField, hskip, Bool.false_eq_true, if_false, selectField_eq]
  cases ht : ir.tagField i with
  | none => exact Or.inr ⟨0, current_of_none initializing input.bytes ht, rfl⟩
  | some t =>
    by_cases heq : (fields t).storedTag (v t) = (fields i).logicalTag (v i)
    · rcases provedCurrent_cases initializing input hlink ht with ⟨e, hread⟩ | ⟨current, hcurrent, hread⟩
      · exact Or.inl ⟨e, by simp [heq, hread]⟩
      · exact Or.inr ⟨current, hcurrent, by simp [heq, hread]⟩
    · exact Or.inl ⟨(ir.context i).leaf .tagMismatch, by simp [heq]⟩

/-- The same for an entry of a patch, which may also be absent. -/
theorem preflightPatchField_cases (hlink : ir.Linked fields) (hi : (fields i).tagEnum = none)
    (preflight : (i : Fin ir.arity) → Context → ℕ → Input (fields i).wire → (fields i).Patch →
      Outcome SchemaError Unit) (p : (struct ir fields).Patch) :
    (∃ e, preflightPatchField ir fields preflight initializing input p i = .err e) ∨
    (p i = none ∧ preflightPatchField ir fields preflight initializing input p i = .ok ()) ∨
    ∃ entry current kind, p i = some entry ∧ Current ir fields initializing input.bytes i current ∧
      preflightPatchField ir fields preflight initializing input p i =
        (fields i).childFailure (ir.context i) kind
          (preflight i (ir.context i) current (input.child (fieldPlace ir fields i)) entry) := by
  have hskip : (fields i).tagEnum.isSome = false := by rw [hi]; rfl
  simp only [preflightPatchField, hskip, Bool.false_eq_true, if_false, selectField_eq]
  cases ht : ir.tagField i with
  | none =>
    cases hp : p i with
    | none => exact Or.inr (Or.inl ⟨rfl, rfl⟩)
    | some entry =>
      have hcurrent := current_of_none initializing input.bytes ht
      exact Or.inr (Or.inr ⟨entry, 0, _, rfl, hcurrent, rfl⟩)
  | some t =>
    cases hp : p i with
    | none =>
      cases hpt : p t with
      | none => exact Or.inr (Or.inl ⟨rfl, by simp [hpt]⟩)
      | some tag => exact Or.inl ⟨(ir.context i).leaf .tagOnlyPatch, by simp [hpt]⟩
    | some entry =>
      by_cases hmatch : (p t).any fun tag => (fields t).entryTag tag != (fields i).patchTag entry
      · exact Or.inl ⟨(ir.context i).leaf .tagMismatch, by cases p t <;> simp_all⟩
      · rcases provedCurrent_cases initializing input hlink ht with
          ⟨e, hread⟩ | ⟨current, hcurrent, hread⟩
        · exact Or.inl ⟨e, by cases hpt : p t <;> simp_all⟩
        · refine Or.inr (Or.inr ⟨entry, current, .incompleteUnionSwitch, rfl, hcurrent, ?_⟩)
          cases hpt : p t <;> simp_all

end Record

/-- The logical engine's passes agree. -/
theorem agree_logical (c : Category) (h : c.Accepted) (initializing : Bool) (ctx : Context)
    (tag : ℕ) (input : Input c.wire) (v : c.Logical) (hfree : c.payloadEnum = none → tag = 0) :
    Agree (c.preflightLogical initializing ctx tag input v)
      (c.commitLogical v (initializing || decide (tag ≠ c.logicalTag v)) input) := by
  induction c generalizing initializing ctx tag with
  | primitive | bool | scalarEnum | tagSibling | unit => exact Agree.of_ok rfl
  | string s => exact agree_string s ctx input v
  | fixedBytes n => exact Agree.of_ok (if_pos v.length_eq)
  | struct ir fields ih =>
    obtain rfl := hfree rfl
    rw [logicalTag_flag rfl, preflightLogical, commitLogical]
    refine agree_fields h.2.1 (fun i hi => ⟨if_pos hi, fun s => if_pos hi⟩) fun i hi => ?_
    rcases preflightLogicalField_cases initializing input h.2.1 hi
      (fun i => preflightLogical (fields i) initializing) v with ⟨e, he⟩ | ⟨current, hcurrent, hcheck⟩
    · simp [he]
    · have hchild := ih i (h.1 i).1 initializing (ir.context i) current
        (input.child (fieldPlace ir fields i)) (v i) (hcurrent.eq_zero h.2.1)
      rw [hcheck, childFailure_eq_ok]
      refine ⟨(agree_childFailure _ _ _ hchild).1, fun hok s hs htag => ?_⟩
      exact commitField_total initializing input h.2.1 hi (fun e he => logicalTag_lt he (v i))
        (fun hp => logicalTag_eq_zero hp (v i)) hcurrent (hchild.2 hok) hs htag
  | tagged ir payload ih =>
    obtain ⟨k, v⟩ := v
    have hpay : (payload k).payloadEnum = none := payloadEnum_eq_none (Or.inl (h.1 k).2)
    have hchild := ih k (h.1 k).1 (initializing || decide (tag ≠ ir.tag k)) .root 0
      (input.child (payloadPlace ir payload k)) v (fun _ => rfl)
    rw [logicalTag_flag hpay] at hchild
    rw [preflightLogical, onLayout_payload, Outcome.ok_bind]
    exact agree_subrangeMut (payloadPlace ir payload k) (hchild.mapErr _)
  | array element n ih =>
    have hpay : element.payloadEnum = none := payloadEnum_eq_none (Or.inr (Or.inl h.2.1))
    obtain rfl := hfree rfl
    rw [logicalTag_flag rfl, preflightLogical, commitLogical]
    refine agree_elements fun j => ?_
    have hchild := ih h.1 initializing (ctx.element n j) 0
      (input.child (elementPlace element j)) (v j) (fun _ => rfl)
    rw [logicalTag_flag hpay] at hchild
    rw [selectElement_eq]
    exact agree_childFailure _ _ _ hchild
  | optional align inner ih =>
    cases v with
    | none => exact Agree.of_ok rfl
    | some v =>
      have hpay : inner.payloadEnum = none := payloadEnum_eq_none (Or.inr (Or.inr h.2.1))
      have hchild := ih h.1 true ctx 0 (input.child (presentPlace align inner)) v (fun _ => rfl)
      rw [preflightLogical, Context.onLayout_subrange, Outcome.ok_bind]
      exact agree_subrangeMut (presentPlace align inner) (agree_childFailure _ _ _ hchild)

/-- The patch engine's passes agree. -/
theorem agree_patch (c : Category) (h : c.Accepted) (initializing : Bool) (ctx : Context)
    (tag : ℕ) (input : Input c.wire) (p : c.Patch) (hfree : c.payloadEnum = none → tag = 0) :
    Agree (c.preflightPatch initializing ctx tag input p)
      (c.commitPatch p (initializing || decide (tag ≠ c.patchTag p)) input) := by
  induction c generalizing initializing ctx tag with
  | primitive | bool | tagSibling | unit => exact Agree.of_ok rfl
  | scalarEnum ir => cases p <;> exact Agree.of_ok rfl
  | string s => exact agree_string s ctx input p
  | fixedBytes n => exact Agree.of_ok (if_pos p.length_eq)
  | struct ir fields ih =>
    obtain rfl := hfree rfl
    rw [patchTag_flag rfl, preflightPatch, commitPatch]
    refine agree_fields h.2.1 (fun i hi => ⟨if_pos hi, fun s => commitPatchField_sibling hi⟩)
      fun i hi => ?_
    rcases preflightPatchField_cases initializing input h.2.1 hi
      (fun i => preflightPatch (fields i) initializing) p with
      ⟨e, he⟩ | ⟨hp, hok⟩ | ⟨entry, current, kind, hp, hcurrent, hcheck⟩
    · simp [he]
    · rw [hok]
      refine ⟨by simp, fun _ s _ _ => ⟨s, ?_, AgreeOn.refl⟩⟩
      simp only [commitPatchField, hp]
    · have hchild := ih i (h.1 i).1 initializing (ir.context i) current
        (input.child (fieldPlace ir fields i)) entry (hcurrent.eq_zero h.2.1)
      rw [hcheck, childFailure_eq_ok]
      refine ⟨(agree_childFailure _ _ _ hchild).1, fun hok s hs htag => ?_⟩
      simp only [commitPatchField, hp]
      exact commitField_total initializing input h.2.1 hi (fun e he => patchTag_lt he entry)
        (fun hp => patchTag_eq_zero hp entry) hcurrent (hchild.2 hok) hs htag
  | tagged ir payload ih =>
    obtain ⟨k, p⟩ := p
    have hpay : (payload k).payloadEnum = none := payloadEnum_eq_none (Or.inl (h.1 k).2)
    have hchild := ih k (h.1 k).1 (initializing || decide (tag ≠ ir.tag k)) .root 0
      (input.child (payloadPlace ir payload k)) p (fun _ => rfl)
    rw [patchTag_flag hpay] at hchild
    rw [preflightPatch, onLayout_payload, Outcome.ok_bind]
    exact agree_requireComplete (agree_subrangeMut (payloadPlace ir payload k) (hchild.mapErr _))
  | array element n ih =>
    exact agree_logical (array element n) h initializing ctx tag input p hfree
  | optional align inner ih =>
    cases p with
    | none => exact Agree.of_ok rfl
    | some p =>
      obtain rfl := hfree rfl
      have hpay : inner.payloadEnum = none := payloadEnum_eq_none (Or.inr (Or.inr h.2.1))
      have hchild := ih h.1 (initializing || input.isAllZero) ctx 0
        (input.child (presentPlace align inner)) p (fun _ => rfl)
      rw [patchTag_flag hpay] at hchild
      rw [preflightPatch, Context.onLayout_subrange, Outcome.ok_bind, patchTag_flag rfl]
      exact agree_requireComplete
        (agree_subrangeMut (presentPlace align inner) (agree_childFailure _ _ _ hchild))

end Category

end ZeroSchema
