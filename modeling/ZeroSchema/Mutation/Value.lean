import ZeroSchema.Mutation.Accept
import ZeroSchema.Mutation.Handle

/-! What the handles are for: what a call and a program of calls do to a value. Nothing here knows
of bytes, of places in them, or of a target. -/
namespace ZeroSchema
open Control

section
variable {α : Type} {p : α → Prop} [DecidablePred p]

private theorem all_iff (o : Option α) :
    (o.all fun a => decide (p a)) = true ↔ ∀ a, o = some a → p a := by
  cases o <;> simp

private theorem any_iff (o : Option α) :
    (o.any fun a => decide (p a)) = true ↔ ∃ a, o = some a ∧ p a := by
  cases o <;> simp

private instance decidableEverySome (o : Option α) : Decidable (∀ a, o = some a → p a) :=
  decidable_of_iff _ (all_iff o)

private instance decidableAnySome (o : Option α) : Decidable (∃ a, o = some a ∧ p a) :=
  decidable_of_iff _ (any_iff o)

instance StringIr.decidableFits : (s : StringIr) → (v : s.Value) → Decidable (s.Fits v)
  | str w _ n, v =>
    inferInstanceAs (Decidable (String.utf8ByteSize v ≤ n ∧ String.utf8ByteSize v < 256 ^ w.bytes))
  | cStr n, v => inferInstanceAs (Decidable ((Terminated.withNul v).length ≤ n))
  | u16Str w _ n, v =>
    inferInstanceAs (Decidable (List.length v ≤ n ∧ List.length v < 256 ^ w.bytes))
  | u16CStr n, v => inferInstanceAs (Decidable ((Terminated.withNul v).length ≤ n))

namespace Category

instance decidableFits : (c : Category) → (v : c.Logical) → Decidable (c.Fits v)
  | primitive _ _, _ | bool, _ | fixedBytes _, _ | scalarEnum _, _ | tagSibling _, _ | unit, _ =>
    inferInstanceAs (Decidable True)
  | string s, v => s.decidableFits v
  | struct ir fields, v =>
    have := fun i => decidableFits (fields i) (v i)
    inferInstanceAs (Decidable ((∀ i t, ir.tagField i = some t →
      (fields t).storedTag (v t) = (fields i).logicalTag (v i)) ∧ ∀ i, (fields i).Fits (v i)))
  | tagged _ payload, ⟨k, v⟩ => decidableFits (payload k) v
  | array element n, v =>
    have := fun j : Fin n => decidableFits element (v j)
    inferInstanceAs (Decidable (∀ j : Fin n, element.Fits (v j)))
  | optional _ _, none => inferInstanceAs (Decidable True)
  | optional _ inner, some v => decidableFits inner v

instance decidablePatchFits : (c : Category) → (p : c.Patch) → Decidable (c.PatchFits p)
  | primitive _ _, _ | bool, _ | fixedBytes _, _ | scalarEnum _, _ | tagSibling _, _ | unit, _ =>
    inferInstanceAs (Decidable True)
  | string s, p => s.decidableFits p
  | struct ir fields, p =>
    have := fun i entry => decidablePatchFits (fields i) entry
    inferInstanceAs (Decidable ((∀ i t, ir.tagField i = some t → ∀ tag, p t = some tag →
      ∃ entry, p i = some entry ∧ (fields t).entryTag tag = (fields i).patchTag entry) ∧
      ∀ i entry, p i = some entry → (fields i).PatchFits entry))
  | tagged _ payload, ⟨k, p⟩ => decidablePatchFits (payload k) p
  | array element _, v => decidableFits (array element _) v
  | optional _ _, none => inferInstanceAs (Decidable True)
  | optional _ inner, some p => decidablePatchFits inner p

instance decidableSuffices : (c : Category) → (base : Option c.Logical) → (p : c.Patch) →
    Decidable (c.Suffices base p)
  | primitive _ _, _, _ | bool, _, _ | string _, _, _ | fixedBytes _, _, _ | scalarEnum _, _, _
  | tagSibling _, _, _ | unit, _, _ | array _ _, _, _ => inferInstanceAs (Decidable True)
  | struct ir fields, base, p =>
    have (i : Fin ir.arity) (entry : (fields i).Patch) :
        Decidable ((fields i).Suffices (base.map fun v => v i) entry) :=
      decidableSuffices (fields i) (base.map fun v => v i) entry
    inferInstanceAs (Decidable (∀ i : Fin ir.arity, ∀ entry : (fields i).Patch, p i = some entry →
      (fields i).Suffices (base.map fun v => v i) entry))
  | tagged _ payload, base, ⟨k, p⟩ =>
    have := decidableSuffices (payload k) (base.bind (payloadOf k)) p
    have : Decidable (base.bind (payloadOf k) = none) :=
      decidable_of_iff ((base.bind (payloadOf k)).isNone = true) Option.isNone_iff_eq_none
    inferInstanceAs (Decidable ((base.bind (payloadOf k) = none →
      (payload k).isComplete p = true) ∧ (payload k).Suffices (base.bind (payloadOf k)) p))
  | optional _ _, _, none => inferInstanceAs (Decidable True)
  | optional _ inner, base, some p =>
    have := decidableSuffices inner base.join p
    have : Decidable (base.join = none) :=
      decidable_of_iff (base.join.isNone = true) Option.isNone_iff_eq_none
    inferInstanceAs (Decidable ((base.join = none → inner.isComplete p = true) ∧
      inner.Suffices base.join p))

end Category

end

/-- The value that a cleared string holds. -/
def StringIr.cleared : (s : StringIr) → s.Value
  | str _ _ _ => ""
  | cStr _ => (⟨[], List.not_mem_nil⟩ : Terminated UInt8)
  | u16Str _ _ _ => ([] : List UInt16)
  | u16CStr _ => (⟨[], List.not_mem_nil⟩ : Terminated UInt16)

namespace Category

/-- The tag that zeros stand for. -/
def zeroTagOf : Category → Option ℕ
  | tagSibling ir => (ir.fromRaw 0).map Fin.val
  | _ => none

/-- The value that zeros stand for, if they do; `tag` is the sibling tag of a tagged payload. -/
def zeroValue : (c : Category) → ℕ → Option c.Logical
  | primitive p _, _ => some (0 : p.Value)
  | bool, _ => some false
  | string s, _ => some s.cleared
  | fixedBytes n, _ => some (Storage.Bytes.zero n)
  | scalarEnum ir, _ | tagSibling ir, _ => ir.fromRaw 0
  | struct ir fields, _ => collect fun i =>
    (ir.siblingTag (fun t => (fields t).zeroTagOf) i).bind (zeroValue (fields i))
  | tagged ir payload, tag =>
    (ir.select tag).bind fun k => (zeroValue (payload k) 0).map (Sigma.mk k)
  | unit, _ => some ()
  | array element _, _ => (zeroValue element 0).map fun v _ => v
  | optional _ _, _ => some none

/-- The value that a patch leaves, unless the patch is rejected. -/
def patched (c : Category) (p : c.Patch) (v : c.Logical) : Option c.Logical :=
  if c.PatchFits p ∧ c.Suffices (some v) p then c.merge (some v) p else none

/-- A list of as many values as an array has elements. -/
def rowOf {α : Type} {n : ℕ} (values : List α) (h : values.length = n) (j : Fin n) : α :=
  values.get ⟨j, lt_of_lt_of_eq j.isLt h.symm⟩

/-- The value that a call leaves; a rejected call leaves none. -/
def Operation.apply : {c : Category} → Operation c → c.Logical → Option c.Logical
  | primitive _ _, setScalar v, _ => some v
  | bool, setBool v, _ => some v
  | scalarEnum _, setEnum v, _ => some v
  | string s, setString v, _ => if s.Fits v then some v else none
  | string s, clearString, _ => some s.cleared
  | fixedBytes n, setBytes source, _ => if h : source.length = n then some ⟨source, h⟩ else none
  | array element n, setElement index v, old =>
    if h : index < n then
      if element.Fits v then some (Function.update old ⟨index, h⟩ v) else none
    else none
  | array element n, copyElements values, _ =>
    if h : values.length = n then
      if (array element n).Fits (rowOf values h) then some (rowOf values h) else none
    else none
  | optional align inner, setOptional v, _ =>
    if (optional align inner).Fits v then some v else none
  | c, copyFrom _ p, old => c.patched p old
  | tagged ir payload, copyPayload p, old =>
    if p.1 = old.1 then (tagged ir payload).patched p old else none
  | struct ir fields, clear _, _ => (struct ir fields).zeroValue 0

/-- What a program does to a value: which of its calls are accepted, and what each leaves. -/
def Mutation.eval : {c : Category} → Mutation c → c.Logical → Trace c.Logical Bool
  | _, call op, v =>
    match op.apply v with
    | some w => [(true, w)]
    | none => [(false, v)]
  | _, skip, _ => []
  | _, seq first rest, v => first.eval v ++ rest.eval (Trace.final v (first.eval v))
  | struct _ _, field i _ m, v => (m.eval (v i)).within (Function.update v i)
  | array _ n, element index m, v =>
    if h : index < n then (m.eval (v ⟨index, h⟩)).within (Function.update v ⟨index, h⟩) else []
  | optional _ _, present m, v =>
    match v with
    | none => []
    | some x => (m.eval x).within some
  | tagged _ _, variant k m, v =>
    match payloadOf k v with
    | none => []
    | some x => (m.eval x).within (Sigma.mk k)

end Category

end ZeroSchema
