import ZeroSchema.Mutation.Run

/-! The shared side of both handle families: getters, child handles, iterators and `copy_into`.
Each of them proves or decodes again what the access has proved, and calls a failure unreachable. -/
namespace ZeroSchema
open Storage Control
variable [Target]

namespace ArrayRef
variable (element : Category) (n : ℕ) (input : Input (Category.array element n).wire)

/-- Nothing is returned out of bounds. The outer `none` is a panic, as in all that follows. -/
def get (index : ℕ) : Option (Option (Input element.wire)) :=
  if index ≥ n then some none
  else do
    let child ← (Category.selectElement element n input index).toOption
    let _ ← (element.prove .root 0 child).value?
    some (some child)

/-- The iterator goes through `get`. -/
def iterNext (next : ℕ) : Option (Option (Input element.wire) × ℕ) :=
  if next = n then some (none, next)
  else do
    let item ← get element n input next
    some (item, next + 1)

def copyInto : Option ((j : Fin n) → Input element.wire) :=
  collect fun j => do
    let item ← get element n input j
    item

end ArrayRef

namespace ArrayMut
variable (element : Category) (n : ℕ) (input : Input (Category.array element n).wire)

def get (index : ℕ) : Option (Option (Input element.wire)) :=
  if index ≥ n then some none
  else do
    let child ← (Category.selectElement element n input index).toOption
    let _ ← (element.prove .root 0 child).value?
    some (some child)

/-- The iterator selects its elements itself. -/
def iterNext (next : ℕ) : Option (Option (Input element.wire) × ℕ) :=
  if next = n then some (none, next)
  else do
    let offset ← (checkedElementOffset next element.wire.size).toOption
    let child ← (input.subrange element.wire offset).toOption
    let _ ← (element.prove .root 0 child).value?
    some (some child, next + 1)

def copyInto : Option ((j : Fin n) → Input element.wire) :=
  collect fun j => do
    let item ← get element n input j
    item

end ArrayMut

/-- The accessor of a payload variant of a shared handle. -/
def TaggedRef.accessor (ir : TaggedIr) (payload : Fin ir.arity → Category) (tag : ℕ)
    (input : Input (Category.tagged ir payload).wire) (k : Fin ir.arity) :
    Option (Option (Input (payload k).wire)) :=
  if tag ≠ ir.tag k then some none
  else do
    let child ← (input.subrange (payload k).wire 0).toOption
    let _ ← ((payload k).prove .root 0 child).value?
    some (some child)

/-- The getter of an optional field scans the storage before it reads the value. -/
def OptionRef.get (align : Option Alignment) (inner : Category)
    (input : Input (Category.optional align inner).wire) : Option (Option (Input inner.wire)) :=
  if input.isAllZero then some none
  else do
    let value ← (input.subrange inner.wire (presentPlace align inner).offset).toOption
    let _ ← (inner.prove .root 0 value).value?
    some (some value)

namespace Category

/-- The getter of a field, with the tag that a payload's handle keeps. -/
def fieldRef {ir : StructIr} {fields : Fin ir.arity → Category}
    (input : Input (struct ir fields).wire) (i : Fin ir.arity) :
    Option (ℕ × Input (fields i).wire) := do
  let tag ← ir.siblingTag
    (fun t => (provedTag ir fields (fun i => (fields i).prove) input t).value?) i
  let child ← (selectField ir fields input i).toOption
  let _ ← ((fields i).prove (ir.context i) tag child).value?
  some (tag, child)

/-- The way from a shared handle to a shared handle that it leads to. -/
inductive Sight : Category → Category → Type
  | here {c} : Sight c c
  | field {ir fields c} (i : Fin ir.arity) (rest : Sight (fields i) c) : Sight (struct ir fields) c
  | element {element n c} (index : ℕ) (rest : Sight element c) : Sight (array element n) c
  | present {align inner c} (rest : Sight inner c) : Sight (optional align inner) c
  | variant {ir payload c} (k : Fin ir.arity) (rest : Sight (payload k) c) :
    Sight (tagged ir payload) c

/-- The shared handle at the end of a way, or nothing where a part is not there. -/
def Sight.look : {c d : Category} → Sight c d → ℕ → Input c.wire →
    Option (Option (ℕ × Input d.wire))
  | _, _, here, tag, input => some (some (tag, input))
  | struct _ _, _, field i rest, _, input => do
    let (tag, child) ← fieldRef input i
    rest.look tag child
  | array item n, _, element index rest, _, input => do
    match ← ArrayRef.get item n input index with
    | none => some none
    | some child => rest.look 0 child
  | optional align inner, _, present rest, _, input => do
    match ← OptionRef.get align inner input with
    | none => some none
    | some value => rest.look 0 value
  | tagged ir payload, _, variant k rest, tag, input => do
    match ← TaggedRef.accessor ir payload tag input k with
    | none => some none
    | some child => rest.look 0 child

/-- Tries one accessor after the other and reads what the first one answers. -/
def firstAnswer {n : ℕ} {α β : Fin n → Type} (access : (k : Fin n) → Option (Option (α k)))
    (read : (k : Fin n) → α k → Option (β k)) : List (Fin n) → Option ((k : Fin n) × β k)
  | [] => none
  | k :: others => do
    match ← access k with
    | none => firstAnswer access read others
    | some answer => (read k answer).map fun v => ⟨k, v⟩

/-- The value that is put together from the getters alone; a payload's accessors are tried in the
order of the declaration. -/
def gather : (c : Category) → ℕ → Input c.wire → Option c.Logical
  | primitive p e, _, input => some (p.get e input.bytes)
  | bool, _, input => BoolWire.decode (BoolWire.raw input.bytes)
  | string s, _, input => (s.read .root input).value?
  | fixedBytes _, _, input => some input.bytes
  | scalarEnum ir, _, input | tagSibling ir, _, input => ir.load input.bytes
  | struct _ fields, _, input => collect fun i => do
    let (tag, child) ← fieldRef input i
    gather (fields i) tag child
  | tagged ir payload, tag, input =>
    firstAnswer (TaggedRef.accessor ir payload tag input) (fun k => gather (payload k) 0)
      (List.finRange ir.arity)
  | unit, _, _ => some ()
  | array element n, _, input => collect fun j : Fin n => do
    let item ← ArrayRef.get element n input j
    let child ← item
    gather element 0 child
  | optional align inner, _, input => do
    match ← OptionRef.get align inner input with
    | none => some none
    | some value => (gather inner 0 value).map some

/-- `copy_into` of a shared handle. -/
def copyInto : (c : Category) → ℕ → Input c.wire → Option c.Logical
  | tagged ir payload, tag, input => do
    let _ ← ((tagged ir payload).prove .root tag input).value?
    (tagged ir payload).materialize tag input
  | array element n, _, input => do
    let items ← ArrayRef.copyInto element n input
    collect fun j => element.materialize 0 (items j)
  | c, tag, input => c.materialize tag input

/-- `copy_into` of an exclusive handle, which reads through a shared view of its storage. -/
def copyIntoMut : (c : Category) → ℕ → Input c.wire → Option c.Logical
  | struct ir fields, _, input =>
    collect (materializeField ir fields (fun i => (fields i).materialize) input)
  | tagged ir payload, tag, input => do
    let _ ← ((tagged ir payload).prove .root tag input).value?
    (tagged ir payload).materialize tag input
  | array element n, _, input => do
    let items ← ArrayMut.copyInto element n input
    collect fun j => element.materialize 0 (items j)
  | optional align inner, _, input => OptionMut.get align inner input
  | c, tag, input => c.materialize tag input

/-- What a getter proves again is still valid. -/
theorem value?_prove {c : Category} {ctx : Context} {tag : ℕ} {input : Input c.wire}
    (h : c.Valid tag input.bytes) : (c.prove ctx tag input).value? = some () :=
  Outcome.value?_eq_some.mpr ((prove_eq_ok c ctx tag input).mpr h)

theorem fieldRef_of_valid {ir : StructIr} {fields : Fin ir.arity → Category}
    {input : Input (struct ir fields).wire} {i : Fin ir.arity} {tag : ℕ}
    (htag : tagAt ir fields input.bytes i = some tag)
    (h : (fields i).Valid tag ((fieldPlace ir fields i).get input.bytes)) :
    fieldRef input i = some (tag, input.child (fieldPlace ir fields i)) := by
  have hprove : ((fields i).prove (ir.context i) tag
      (input.child (fieldPlace ir fields i))).value? = some () := value?_prove h
  unfold fieldRef
  rw [siblingTag_proved, htag, selectField_eq]
  change (((fields i).prove (ir.context i) tag
    (input.child (fieldPlace ir fields i))).value? >>= _) = _
  rw [hprove]
  rfl

end Category

open Category

section Array
variable {element : Category} {n : ℕ} {input : Input (array element n).wire}

/-- The element that a valid array returns at an index. -/
private theorem read_element {α : Type} (h : (array element n).Valid 0 input.bytes) (j : Fin n)
    (f : Input element.wire → α) : (do
      let child ← (selectElement element n input j).toOption
      let _ ← (element.prove .root 0 child).value?
      some (f child)) = some (f (input.child (elementPlace element j))) := by
  have hprove : (element.prove .root 0 (input.child (elementPlace element j))).value? = some () :=
    value?_prove (h j)
  rw [selectElement_eq]
  change ((element.prove .root 0 (input.child (elementPlace element j))).value? >>= _) = _
  rw [hprove]
  rfl

theorem ArrayRef.get_of_valid (h : (array element n).Valid 0 input.bytes) (j : Fin n) :
    ArrayRef.get element n input j = some (some (input.child (elementPlace element j))) := by
  unfold ArrayRef.get
  rw [if_neg (by omega)]
  exact read_element h j some

theorem ArrayMut.get_of_valid (h : (array element n).Valid 0 input.bytes) (j : Fin n) :
    ArrayMut.get element n input j = some (some (input.child (elementPlace element j))) := by
  unfold ArrayMut.get
  rw [if_neg (by omega)]
  exact read_element h j some

/-- The iterators of both families yield the elements in order. -/
theorem ArrayRef.iter_of_valid (h : (array element n).Valid 0 input.bytes) (calls : ℕ) :
    drain (ArrayRef.iterNext element n input) calls 0 =
      some ((List.ofFn fun j : Fin n => input.child (elementPlace element j)).take calls) := by
  apply drain_count
  · intro j
    unfold ArrayRef.iterNext
    rw [if_neg (by omega), ArrayRef.get_of_valid h]
    rfl
  · exact if_pos rfl

theorem ArrayMut.iter_of_valid (h : (array element n).Valid 0 input.bytes) (calls : ℕ) :
    drain (ArrayMut.iterNext element n input) calls 0 =
      some ((List.ofFn fun j : Fin n => input.child (elementPlace element j)).take calls) := by
  apply drain_count
  · intro j
    have hread := read_element h j fun child => (some child, (j : ℕ) + 1)
    unfold ArrayMut.iterNext
    rw [if_neg (by omega)]
    unfold selectElement at hread
    rw [checkedElementOffset_eq input j] at hread ⊢
    exact hread
  · exact if_pos rfl

theorem ArrayRef.copyInto_of_valid (h : (array element n).Valid 0 input.bytes) :
    ArrayRef.copyInto element n input =
      some fun j : Fin n => input.child (elementPlace element j) := by
  apply collect_eq_some.mpr
  intro j
  rw [ArrayRef.get_of_valid h]
  rfl

theorem ArrayMut.copyInto_of_valid (h : (array element n).Valid 0 input.bytes) :
    ArrayMut.copyInto element n input =
      some fun j : Fin n => input.child (elementPlace element j) := by
  apply collect_eq_some.mpr
  intro j
  rw [ArrayMut.get_of_valid h]
  rfl

end Array

section Tagged
variable {ir : TaggedIr} {payload : Fin ir.arity → Category} {tag : ℕ} {k : Fin ir.arity}
  {input : Input (tagged ir payload).wire}

theorem TaggedRef.accessor_other (h : tag ≠ ir.tag k) :
    TaggedRef.accessor ir payload tag input k = some none := if_pos h

theorem TaggedRef.accessor_of_valid (htag : tag = ir.tag k)
    (h : (payload k).Valid 0 ((payloadPlace ir payload k).get input.bytes)) :
    TaggedRef.accessor ir payload tag input k =
      some (some (input.child (payloadPlace ir payload k))) := by
  have hselect : input.subrange (payload k).wire 0 = .ok (input.child (payloadPlace ir payload k)) :=
    input.subrange_place (payloadPlace ir payload k)
  have hprove : ((payload k).prove .root 0
      (input.child (payloadPlace ir payload k))).value? = some () := value?_prove h
  unfold TaggedRef.accessor
  rw [if_neg (not_not_intro htag), hselect]
  change (((payload k).prove .root 0 (input.child (payloadPlace ir payload k))).value? >>= _) = _
  rw [hprove]
  rfl

end Tagged

section Optional
variable {align : Option Alignment} {inner : Category} {input : Input (optional align inner).wire}

theorem OptionRef.get_of_zero (h : input.bytes.IsZero) :
    OptionRef.get align inner input = some none := if_pos (Input.isAllZero_eq_true.mpr h)

theorem OptionRef.get_of_valid (hz : ¬input.bytes.IsZero)
    (h : inner.Valid 0 ((presentPlace align inner).get input.bytes)) :
    OptionRef.get align inner input = some (some (input.child (presentPlace align inner))) := by
  have hprove : (inner.prove .root 0 (input.child (presentPlace align inner))).value? = some () :=
    value?_prove h
  unfold OptionRef.get
  rw [if_neg (mt Input.isAllZero_eq_true.mp hz), Input.subrange_place]
  change ((inner.prove .root 0 (input.child (presentPlace align inner))).value? >>= _) = _
  rw [hprove]
  rfl

end Optional

end ZeroSchema
