import ZeroSchema.Mutation.Agreement

/-! What a rejected write is to blame on: the kind of the check that failed first, and the kind
that an enclosing schema reports in its place. -/
namespace ZeroSchema
open Storage Control

/-- The kind that the failing check itself reports, and the one that the outermost schema reports
that does not keep it. -/
structure Blame where
  cause : ErrorKind
  outer : Option ErrorKind
deriving DecidableEq

namespace Blame

def leaf (cause : ErrorKind) : Blame := ⟨cause, none⟩

/-- A schema that reports its own kind for any failure below it. -/
def under (kind : ErrorKind) (b : Blame) : Blame := ⟨b.cause, some kind⟩

/-- The kind of the error that is returned. -/
def kind (b : Blame) : ErrorKind := b.outer.getD b.cause

/-- Nobody replaces the cause, or the outermost one that does names it by chance. -/
def Keeps (b : Blame) : Prop := ∀ kind, b.outer = some kind → kind = b.cause

theorem kind_eq_cause {b : Blame} : b.kind = b.cause ↔ b.Keeps := by
  unfold kind Keeps
  cases b.outer with
  | none => simp
  | some k => simp

end Blame

/-- A check succeeds when there is nothing to blame, and reports the kind otherwise. -/
def Reports (x : Outcome SchemaError Unit) : Option Blame → Prop
  | none => x = .ok ()
  | some b => ∃ e, x = .err e ∧ e.kind = b.kind

section Reports
variable {x : Outcome SchemaError Unit} {b : Option Blame}

theorem Reports.eq_ok (h : Reports x b) : x = .ok () ↔ b = none := by
  cases b with
  | none => exact ⟨fun _ => rfl, fun _ => h⟩
  | some b =>
    obtain ⟨e, rfl, -⟩ := h
    simp

theorem Reports.leaf (e : SchemaError) : Reports (.err e) (some (.leaf e.kind)) := ⟨e, rfl, rfl⟩

theorem Reports.replace (h : Reports x b) (e : SchemaError) :
    Reports (x.mapErr fun _ => e) (b.map (.under e.kind)) := by
  cases b with
  | none =>
    obtain rfl : x = .ok () := h
    rfl
  | some b =>
    obtain ⟨e', rfl, -⟩ := h
    exact ⟨e, rfl, rfl⟩

/-- The first check of a loop that fails is to blame. -/
theorem reports_forEach {n : ℕ} {check : Fin n → Outcome SchemaError Unit}
    {blame : Fin n → Option Blame} (h : ∀ i, Reports (check i) (blame i)) :
    Reports (forEach n check) ((List.finRange n).findSome? blame) := by
  have main (l : List (Fin n)) :
      Reports (l.foldlM (fun _ i => check i) ()) (l.findSome? blame) := by
    induction l with
    | nil => exact rfl
    | cons i l ih =>
      have hi := h i
      rw [List.foldlM_cons, List.findSome?_cons]
      cases hb : blame i with
      | none =>
        rw [hb] at hi
        rw [show check i = .ok () from hi]
        exact ih
      | some b =>
        rw [hb] at hi
        obtain ⟨e, he, hkind⟩ := hi
        rw [he]
        exact ⟨e, rfl, hkind⟩
  exact main _

end Reports

/-- The kind of the check of a string that fails, if one does. -/
def StringIr.misfit (s : StringIr) (v : s.Value) : Option ErrorKind :=
  match s.check v with
  | .ok () => none
  | .error e => some e.kind

namespace Category

/-- The child of a schema that has an error type of its own. -/
def childBlame (c : Category) (kind : ErrorKind) (b : Option Blame) : Option Blame :=
  if c.ownsErrors then b.map (.under kind) else b

theorem reports_childFailure {x : Outcome SchemaError Unit} {b : Option Blame} (c : Category)
    (ctx : Context) (kind : ErrorKind) (h : Reports x b) :
    Reports (c.childFailure ctx kind x) (c.childBlame kind b) := by
  unfold childFailure childBlame
  split_ifs
  · exact h.replace (ctx.leaf kind)
  · exact h

/-- Nothing is initialized from an incomplete patch. -/
def incomplete (c : Category) (p : c.Patch) (initializing : Bool) (blame : Blame)
    (others : Option Blame) : Option Blame :=
  if initializing && !c.isComplete p then some blame else others

theorem reports_requireComplete {c : Category} {p : c.Patch} {initializing : Bool}
    {failure : SchemaError} {blame : Blame} (hkind : failure.kind = blame.kind)
    {x : Outcome SchemaError Unit} {b : Option Blame} (h : Reports x b) :
    Reports (c.requireComplete p initializing failure x) (c.incomplete p initializing blame b) := by
  unfold requireComplete incomplete
  split_ifs
  · exact ⟨failure, rfl, hkind⟩
  · exact h

variable [Target]

section Record
variable (ir : StructIr) (fields : Fin ir.arity → Category) (initializing : Bool)
  (b : Bytes (struct ir fields).wire.size)

/-- The tag that a check of a field starts from. -/
def currentAt (i : Fin ir.arity) : Option ℕ :=
  if initializing then some 0 else tagAt ir fields b i

def logicalFieldBlame
    (blame : (i : Fin ir.arity) → ℕ → Bytes (fields i).wire.size → (fields i).Logical →
      Option Blame) (v : (struct ir fields).Logical) (i : Fin ir.arity) : Option Blame :=
  if (fields i).tagEnum.isSome then none
  else
    match ir.tagField i with
    | none =>
      (fields i).childBlame .capacityExceeded (blame i 0 ((fieldPlace ir fields i).get b) (v i))
    | some t =>
      if (fields t).storedTag (v t) ≠ (fields i).logicalTag (v i) then some (.leaf .tagMismatch)
      else
        match currentAt ir fields initializing b i with
        | none => some (.leaf .unknownEnumValue)
        | some current => (fields i).childBlame .capacityExceeded
          (blame i current ((fieldPlace ir fields i).get b) (v i))

def patchFieldBlame
    (blame : (i : Fin ir.arity) → ℕ → Bytes (fields i).wire.size → (fields i).Patch → Option Blame)
    (p : (struct ir fields).Patch) (i : Fin ir.arity) : Option Blame :=
  if (fields i).tagEnum.isSome then none
  else
    match ir.tagField i with
    | none =>
      match p i with
      | none => none
      | some entry =>
        (fields i).childBlame .capacityExceeded (blame i 0 ((fieldPlace ir fields i).get b) entry)
    | some t =>
      match p t, p i with
      | none, none => none
      | some _, none => some (.leaf .tagOnlyPatch)
      | tag, some entry =>
        if tag.any fun tag => (fields t).entryTag tag != (fields i).patchTag entry then
          some (.leaf .tagMismatch)
        else
          match currentAt ir fields initializing b i with
          | none => some (.leaf .unknownEnumValue)
          | some current => (fields i).childBlame .incompleteUnionSwitch
            (blame i current ((fieldPlace ir fields i).get b) entry)

end Record

/-- What a rejected value is to blame on. -/
def logicalBlame : (c : Category) → Bool → ℕ → Bytes c.wire.size → c.Logical → Option Blame
  | primitive _ _, _, _, _, _ | bool, _, _, _, _ | scalarEnum _, _, _, _, _
  | tagSibling _, _, _, _, _ | unit, _, _, _, _ | fixedBytes _, _, _, _, _ => none
  | string s, _, _, _, v => (s.misfit v).map .leaf
  | struct ir fields, initializing, _, b, v =>
    (List.finRange ir.arity).findSome? (logicalFieldBlame ir fields initializing b
      (fun i => logicalBlame (fields i) initializing) v)
  | tagged ir payload, initializing, tag, b, ⟨k, v⟩ =>
    (logicalBlame (payload k) (initializing || decide (tag ≠ ir.tag k)) 0
      ((payloadPlace ir payload k).get b) v).map (.under .layout)
  | array element n, initializing, _, b, v =>
    (List.finRange n).findSome? fun j => element.childBlame .capacityExceeded
      (logicalBlame element initializing 0 ((elementPlace element j).get b) (v j))
  | optional _ _, _, _, _, none => none
  | optional align inner, _, _, b, some v => inner.childBlame .capacityExceeded
    (logicalBlame inner true 0 ((presentPlace align inner).get b) v)

/-- What a rejected patch is to blame on. -/
def patchBlame : (c : Category) → Bool → ℕ → Bytes c.wire.size → c.Patch → Option Blame
  | primitive _ _, _, _, _, _ | bool, _, _, _, _ | scalarEnum _, _, _, _, _
  | tagSibling _, _, _, _, _ | unit, _, _, _, _ | fixedBytes _, _, _, _, _ => none
  | string s, _, _, _, p => (s.misfit p).map .leaf
  | struct ir fields, initializing, _, b, p =>
    (List.finRange ir.arity).findSome? (patchFieldBlame ir fields initializing b
      (fun i => patchBlame (fields i) initializing) p)
  | tagged ir payload, initializing, tag, b, ⟨k, p⟩ =>
    let initializing := initializing || decide (tag ≠ ir.tag k)
    (payload k).incomplete p initializing ⟨.incompleteUnionSwitch, some .layout⟩
      ((patchBlame (payload k) initializing 0 ((payloadPlace ir payload k).get b) p).map
        (.under .layout))
  | array element n, initializing, tag, b, v => (array element n).logicalBlame initializing tag b v
  | optional _ _, _, _, _, none => none
  | optional align inner, initializing, _, b, some p =>
    let initializing := initializing || decide b.IsZero
    inner.incomplete p initializing (.leaf .incompleteOptionalInitialization)
      (inner.childBlame .capacityExceeded
        (patchBlame inner initializing 0 ((presentPlace align inner).get b) p))

theorem reports_string (s : StringIr) (ctx : Context) (input : Input s.wire) (v : s.Value) :
    Reports (s.preflight ctx input v) ((s.misfit v).map .leaf) := by
  rw [StringIr.preflight_eq]
  unfold StringIr.misfit
  cases s.check v with
  | ok u => exact rfl
  | error e => exact ⟨_, rfl, rfl⟩

/-- Reading a tag fails with the kind of an undeclared value. -/
theorem provedTag_of_none {ir : StructIr} {fields : Fin ir.arity → Category}
    {input : Input (struct ir fields).wire} {t : Fin ir.arity} (ht : (fields t).tagEnum.isSome)
    (hnone : (fields t).loadTag ((fieldPlace ir fields t).get input.bytes) = none) :
    ∃ e, provedTag ir fields (fun i => prove (fields i)) input t = .err e ∧
      e.kind = .unknownEnumValue := by
  have key (c : Category) (hc : c.tagEnum.isSome) (ctx : Context) (selected : Input c.wire)
      (hnone : c.loadTag selected.bytes = none) :
      ∃ e, (do c.wrap ctx (prove c ctx 0 selected)
               Outcome.expect (c.loadTag selected.bytes)) = Outcome.err e ∧
        e.kind = .unknownEnumValue := by
    cases c with
    | tagSibling ir =>
      have hload : ir.load selected.bytes = none := Option.map_eq_none_iff.mp hnone
      rw [prove, hload]
      exact ⟨_, rfl, rfl⟩
    | _ => cases hc
  rw [provedTag, selectField_eq]
  exact key (fields t) ht (ir.context t) (input.child (fieldPlace ir fields t)) hnone

section Record
variable {ir : StructIr} {fields : Fin ir.arity → Category} {initializing : Bool}
  {input : Input (struct ir fields).wire} {i t : Fin ir.arity}

/-- A check that starts from the current tag. -/
theorem reports_current (hlink : ir.Linked fields) (ht : ir.tagField i = some t)
    {check : ℕ → Outcome SchemaError Unit} {blame : ℕ → Option Blame}
    (h : ∀ current, Reports (check current) (blame current)) :
    Reports (provedCurrent ir fields initializing input t >>= check)
      (match currentAt ir fields initializing input.bytes i with
        | none => some (.leaf .unknownEnumValue)
        | some current => blame current) := by
  have hsome := hlink.tagEnum_isSome ht
  unfold currentAt provedCurrent
  cases initializing with
  | true => exact h 0
  | false =>
    simp only [Bool.false_eq_true, if_false]
    cases hload : tagAt ir fields input.bytes i with
    | none =>
      rw [tagAt_of_link ht] at hload
      obtain ⟨e, he, hkind⟩ := provedTag_of_none hsome hload
      rw [he]
      exact ⟨e, rfl, hkind⟩
    | some current =>
      rw [tagAt_of_link ht] at hload
      have hread : provedTag ir fields (fun i => prove (fields i)) input t = .ok current :=
        (provedTag_eq_ok (prove_eq_ok (fields t))).mpr hload
      rw [hread]
      exact h current

theorem reports_logicalField (hlink : ir.Linked fields) {v : (struct ir fields).Logical}
    {check : (i : Fin ir.arity) → Context → ℕ → Input (fields i).wire → (fields i).Logical →
      Outcome SchemaError Unit}
    {blame : (i : Fin ir.arity) → ℕ → Bytes (fields i).wire.size → (fields i).Logical →
      Option Blame}
    (h : ∀ i ctx tag child v, Reports (check i ctx tag child v) (blame i tag child.bytes v))
    (i : Fin ir.arity) : Reports (preflightLogicalField ir fields check initializing input v i)
      (logicalFieldBlame ir fields initializing input.bytes blame v i) := by
  unfold preflightLogicalField logicalFieldBlame
  split_ifs
  · exact rfl
  · cases ht : ir.tagField i with
    | none =>
      simp only [selectField_eq]
      exact reports_childFailure _ _ _ (h i _ 0 (input.child (fieldPlace ir fields i)) (v i))
    | some t =>
      simp only [selectField_eq]
      split_ifs
      · exact Reports.leaf _
      · exact reports_current hlink ht fun current =>
          reports_childFailure _ _ _ (h i _ current (input.child (fieldPlace ir fields i)) (v i))

theorem reports_patchField (hlink : ir.Linked fields) {p : (struct ir fields).Patch}
    {check : (i : Fin ir.arity) → Context → ℕ → Input (fields i).wire → (fields i).Patch →
      Outcome SchemaError Unit}
    {blame : (i : Fin ir.arity) → ℕ → Bytes (fields i).wire.size → (fields i).Patch →
      Option Blame}
    (h : ∀ i ctx tag child entry, Reports (check i ctx tag child entry)
      (blame i tag child.bytes entry)) (i : Fin ir.arity) :
    Reports (preflightPatchField ir fields check initializing input p i)
      (patchFieldBlame ir fields initializing input.bytes blame p i) := by
  have hchild (kind : ErrorKind) (current : ℕ) (entry : (fields i).Patch) :=
    reports_childFailure (fields i) (ir.context i) kind
      (h i (ir.context i) current (input.child (fieldPlace ir fields i)) entry)
  unfold preflightPatchField patchFieldBlame
  split_ifs
  · exact rfl
  · cases ht : ir.tagField i with
    | none =>
      cases p i with
      | none => exact rfl
      | some entry =>
        simp only [selectField_eq]
        exact hchild .capacityExceeded 0 entry
    | some t =>
      simp only [selectField_eq]
      cases p t with
      | none =>
        cases p i with
        | none => exact rfl
        | some entry => exact reports_current hlink ht fun current => hchild _ current entry
      | some tag =>
        cases p i with
        | none => exact Reports.leaf _
        | some entry =>
          simp only [Option.any_some]
          split_ifs
          · exact Reports.leaf _
          · exact reports_current hlink ht fun current => hchild _ current entry

end Record

/-- The preflight of a value reports what the value is to blame on. -/
theorem preflightLogical_reports (c : Category) (h : c.Accepted) (initializing : Bool)
    (ctx : Context) (tag : ℕ) (input : Input c.wire) (v : c.Logical) :
    Reports (c.preflightLogical initializing ctx tag input v)
      (c.logicalBlame initializing tag input.bytes v) := by
  induction c generalizing initializing ctx tag with
  | primitive | bool | scalarEnum | tagSibling | unit => exact rfl
  | string s => exact reports_string s ctx input v
  | fixedBytes n => exact if_pos v.length_eq
  | struct ir fields ih =>
    apply reports_forEach
    apply reports_logicalField h.2.1
    intro i ctx tag child v
    exact ih i (h.1 i).1 initializing ctx tag child v
  | tagged ir payload ih =>
    obtain ⟨k, v⟩ := v
    rw [preflightLogical, onLayout_payload, Outcome.ok_bind]
    have hchild := ih k (h.1 k).1 (initializing || decide (tag ≠ ir.tag k)) .root 0
      (input.child (payloadPlace ir payload k)) v
    exact hchild.replace (.layout ir.logicalName .offsetOverflow)
  | array element n ih =>
    apply reports_forEach
    intro j
    rw [selectElement_eq]
    have hchild := ih h.1 initializing (ctx.element n j) 0 (input.child (elementPlace element j)) (v j)
    exact reports_childFailure element (ctx.element n j) .capacityExceeded hchild
  | optional align inner ih =>
    cases v with
    | none => exact rfl
    | some v =>
      rw [preflightLogical, Context.onLayout_subrange, Outcome.ok_bind]
      have hchild := ih h.1 true ctx 0 (input.child (presentPlace align inner)) v
      exact reports_childFailure inner ctx .capacityExceeded hchild

/-- And that of a patch what the patch is. -/
theorem preflightPatch_reports (c : Category) (h : c.Accepted) (initializing : Bool)
    (ctx : Context) (tag : ℕ) (input : Input c.wire) (p : c.Patch) :
    Reports (c.preflightPatch initializing ctx tag input p)
      (c.patchBlame initializing tag input.bytes p) := by
  induction c generalizing initializing ctx tag with
  | primitive | bool | scalarEnum | tagSibling | unit => exact rfl
  | string s => exact reports_string s ctx input p
  | fixedBytes n => exact if_pos p.length_eq
  | struct ir fields ih =>
    apply reports_forEach
    apply reports_patchField h.2.1
    intro i ctx tag child entry
    exact ih i (h.1 i).1 initializing ctx tag child entry
  | tagged ir payload ih =>
    obtain ⟨k, p⟩ := p
    have hchild := ih k (h.1 k).1 (initializing || decide (tag ≠ ir.tag k)) .root 0
      (input.child (payloadPlace ir payload k)) p
    rw [preflightPatch, onLayout_payload, Outcome.ok_bind]
    exact reports_requireComplete rfl (hchild.replace (.layout ir.logicalName .offsetOverflow))
  | array element n =>
    exact preflightLogical_reports (array element n) h initializing ctx tag input p
  | optional align inner ih =>
    cases p with
    | none => exact rfl
    | some p =>
      have hzero : input.isAllZero = decide input.bytes.IsZero := by
        rw [Bool.eq_iff_iff, Input.isAllZero_eq_true, decide_eq_true_iff]
      have hchild := ih h.1 (initializing || decide input.bytes.IsZero) ctx 0
        (input.child (presentPlace align inner)) p
      rw [preflightPatch, Context.onLayout_subrange, Outcome.ok_bind, hzero]
      exact reports_requireComplete rfl (reports_childFailure inner ctx .capacityExceeded hchild)

end Category

end ZeroSchema
