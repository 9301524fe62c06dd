import ZeroSchema.Library.Trace
import ZeroSchema.Mutation.Agreement
import ZeroSchema.Mutation.Merge
import ZeroSchema.Schema.Observe

/-! The public mutation handles, and programs over them. A call preflights everything it is
given before its first write. -/
namespace ZeroSchema
open Storage Control

namespace Category

/-- The calls that the handle of a category offers. -/
inductive Operation : Category → Type
  | setScalar {p e} (v : (primitive p e).Logical) : Operation (primitive p e)
  | setBool (v : Bool) : Operation bool
  | setEnum {ir} (v : (scalarEnum ir).Logical) : Operation (scalarEnum ir)
  | setString {s} (v : (string s).Logical) : Operation (string s)
  | clearString {s} : Operation (string s)
  | setBytes {n} (source : List UInt8) : Operation (fixedBytes n)
  | setElement {element n} (index : ℕ) (v : element.Logical) : Operation (array element n)
  | copyElements {element n} (values : List element.Logical) : Operation (array element n)
  | setOptional {align inner} (v : (optional align inner).Logical) :
    Operation (optional align inner)
  | copyFrom {c} (path : c.isPath = true) (p : c.Patch) : Operation c
  | copyPayload {ir payload} (p : (tagged ir payload).Patch) : Operation (tagged ir payload)
  | clear {ir fields} (gate : (struct ir fields).clearState = .zeroValid) :
    Operation (struct ir fields)

/-- A program of calls through one handle and through the handles that it lends. An
out-of-bounds element, an absent optional and a payload of another variant lend nothing. -/
inductive Mutation : Category → Type
  | call {c} (op : Operation c) : Mutation c
  | skip {c} : Mutation c
  | seq {c} (first rest : Mutation c) : Mutation c
  | field {ir fields} (i : Fin ir.arity) (h : (fields i).tagEnum = none)
    (m : Mutation (fields i)) : Mutation (struct ir fields)
  | element {element n} (index : ℕ) (m : Mutation element) : Mutation (array element n)
  | present {align inner} (m : Mutation inner) : Mutation (optional align inner)
  | variant {ir payload} (k : Fin ir.arity) (m : Mutation (payload k)) :
    Mutation (tagged ir payload)

/-- The way from a handle to a handle that it lends. -/
inductive Position : Category → Category → Type
  | here {c} : Position c c
  | field {ir fields c} (i : Fin ir.arity) (h : (fields i).tagEnum = none)
    (rest : Position (fields i) c) : Position (struct ir fields) c
  | element {element n c} (index : ℕ) (rest : Position element c) : Position (array element n) c
  | present {align inner c} (rest : Position inner c) : Position (optional align inner) c
  | variant {ir payload c} (k : Fin ir.arity) (rest : Position (payload k) c) :
    Position (tagged ir payload) c

/-- The program that goes to a position and works there. -/
def Position.wrap : {c d : Category} → Position c d → Mutation d → Mutation c
  | _, _, here, m => m
  | _, _, field i h rest, m => .field i h (rest.wrap m)
  | _, _, element index rest, m => .element index (rest.wrap m)
  | _, _, present rest, m => .present (rest.wrap m)
  | _, _, variant k rest, m => .variant k (rest.wrap m)

end Category

variable [Target]

/-- The result of a call and the storage it leaves; `none` is a panic. -/
abbrev Answer (W : Layout) : Type := Option (Except SchemaError Unit × Input W)

/-- The handle of a part is made from its proof; a failed proof is an unreachable branch. -/
def provedChild {W F : Layout} (input : Input W) (offset : ℕ)
    (prove : Input F → Outcome SchemaError Unit) : Option (Input F) := do
  let child ← (input.subrange F offset).toOption
  let _ ← (prove child).value?
  some child

/-- Writes only after the whole preflight succeeded. -/
def twoPass {W : Layout} (input : Input W) (preflight : Outcome SchemaError Unit)
    (commit : Input W → Option (Input W)) : Answer W :=
  match preflight with
  | .ok () => (commit input).map fun input => (.ok (), input)
  | .err e => some (.error e, input)
  | .unreachable => none

/-- `set` of a scalar, a Boolean or a scalar enum. -/
def ScalarMut.set (c : Category) (ctx : Context) (input : Input c.wire) (v : c.Logical) :
    Answer c.wire :=
  twoPass input (c.preflightLogical false ctx 0 input v) (c.commitLogical v false)

/-- A string handle reports its own field, also when it is an array element's. -/
def StringMut.set (s : StringIr) (ctx : Context) (input : Input s.wire) (v : s.Value) :
    Answer s.wire :=
  twoPass input (s.preflight (.ofField ctx.schema ctx.field) input v) fun input => s.commit input v

def StringMut.clear (s : StringIr) (input : Input s.wire) : Answer s.wire :=
  some (.ok (), input.clearAll)

/-- `copy_from_slice` would panic on another length. -/
def BytesMut.set (n : ℕ) (ctx : Context) (input : Input (Layout.bytes n)) (source : List UInt8) :
    Answer (Layout.bytes n) :=
  twoPass input (FixedBytes.preflight n ctx source) fun input =>
    if h : source.length = n then some (input.overwrite ⟨source, h⟩) else none

namespace ArrayMut
variable (element : Category) (n : ℕ) (ctx : Context)
  (input : Input (Category.array element n).wire)

def set (index : ℕ) (v : element.Logical) : Answer (Category.array element n).wire :=
  if index < n then
    twoPass input
      (do
        let child ← (ctx.element n index).onLayout (Category.selectElement element n input index)
        element.childFailure (ctx.element n index) .capacityExceeded
          (element.preflightLogical false (ctx.element n index) 0 child v))
      (Category.commitElement element n index (element.commitLogical v false))
  else
    some (.error (.leaf ctx.schema [.field ctx.field, .index index] .arrayIndexOutOfBounds), input)

def preflightElementLocations : Outcome SchemaError Unit :=
  forEach n fun j => do
    let _ ← (ctx.element n j).onLayout (Category.selectElement element n input j)
    .ok ()

/-- The length is checked first, then every location, then every value. -/
def copyFrom (values : List element.Logical) : Answer (Category.array element n).wire :=
  if h : values.length = n then
    twoPass input
      (do
        preflightElementLocations element n ctx input
        forEach n fun j => do
          let child ← .expect (Category.selectElement element n input j).toOption
          element.childFailure (ctx.element n j) .capacityExceeded
            (element.preflightLogical false (ctx.element n j) 0 child (values.get (j.cast h.symm))))
      ((Category.array element n).commitLogical (fun j => values.get (j.cast h.symm)) false)
  else some (.error (.leaf ctx.schema [.field ctx.field] .arrayLengthMismatch), input)

end ArrayMut

namespace OptionMut
variable (align : Option Alignment) (inner : Category)

/-- Presence is read off the whole storage; a present value is proved again and read. -/
def get (input : Input (Category.optional align inner).wire) : Option (Option inner.Logical) :=
  (Category.optional align inner).materialize 0 input

def set (ctx : Context) (input : Input (Category.optional align inner).wire)
    (v : Option inner.Logical) : Answer (Category.optional align inner).wire :=
  twoPass input ((Category.optional align inner).preflightLogical false ctx 0 input v)
    ((Category.optional align inner).commitLogical v false)

end OptionMut

/-- `copy_from` of a record or of a scalar enum: the destination is validated first. -/
def copyFrom (c : Category) (ctx : Context) (input : Input c.wire) (p : c.Patch) : Answer c.wire :=
  twoPass input
    (do
      c.prove ctx 0 input
      c.preflightPatch false ctx 0 input p)
    (c.commitPatch p false)

/-- The accessor of a payload variant. The outer `none` is a panic, the inner one the answer. -/
def TaggedMut.accessor (ir : TaggedIr) (payload : Fin ir.arity → Category) (tag : ℕ)
    (input : Input (Category.tagged ir payload).wire) (k : Fin ir.arity) :
    Option (Option (Input (payload k).wire)) :=
  if tag = ir.tag k then (provedChild input 0 ((payload k).prove .root 0)).map some else some none

/-- `copy_from` of a selected payload, which cannot change the tag. -/
def TaggedMut.copyFrom (ir : TaggedIr) (payload : Fin ir.arity → Category) (tag : ℕ)
    (input : Input (Category.tagged ir payload).wire) (p : (Category.tagged ir payload).Patch) :
    Answer (Category.tagged ir payload).wire :=
  if (Category.tagged ir payload).patchTag p ≠ tag then
    some (.error (.leaf ir.logicalName [] .tagMismatch), input)
  else
    twoPass input ((Category.tagged ir payload).preflightPatch false .root tag input p)
      ((Category.tagged ir payload).commitPatch p false)

namespace Category

/-- Runs a call on the handle of storage that was proved under `tag`. -/
def Operation.perform : {c : Category} → Operation c → Context → ℕ → Input c.wire → Answer c.wire
  | primitive p e, setScalar v, ctx, _, input => ScalarMut.set (primitive p e) ctx input v
  | bool, setBool v, ctx, _, input => ScalarMut.set bool ctx input v
  | scalarEnum ir, setEnum v, ctx, _, input => ScalarMut.set (scalarEnum ir) ctx input v
  | string s, setString v, ctx, _, input => StringMut.set s ctx input v
  | string s, clearString, _, _, input => StringMut.clear s input
  | fixedBytes n, setBytes source, ctx, _, input => BytesMut.set n ctx input source
  | array element n, setElement index v, ctx, _, input =>
    ArrayMut.set element n ctx input index v
  | array element n, copyElements values, ctx, _, input =>
    ArrayMut.copyFrom element n ctx input values
  | optional align inner, setOptional v, ctx, _, input => OptionMut.set align inner ctx input v
  | c, copyFrom _ p, ctx, _, input => ZeroSchema.copyFrom c ctx input p
  | tagged ir payload, copyPayload p, _, tag, input => TaggedMut.copyFrom ir payload tag input p
  | struct _ _, clear _, _, _, input => some (.ok (), input.clearAll)

/-- A handle: the storage it works on, and what its errors and its selection need. -/
structure Lent (c : Category) where
  ctx : Context
  tag : ℕ
  input : Input c.wire

/-- The handle at a position. The outer `none` is a panic, the inner one a part that is not
there. -/
def Position.lend : {c d : Category} → Position c d → Context → ℕ → Input c.wire →
    Option (Option (Lent d))
  | _, _, here, ctx, tag, input => some (some ⟨ctx, tag, input⟩)
  | struct ir fields, _, field i _ rest, _, _, input => do
    let tag ← ir.siblingTag
      (fun t => (provedTag ir fields (fun i => (fields i).prove) input t).value?) i
    let child ← provedChild input (fieldPlace ir fields i).offset
      ((fields i).prove (ir.context i) tag)
    rest.lend (ir.context i) tag child
  | array item n, _, element index rest, ctx, _, input =>
    if index < n then do
      let offset ← (checkedElementOffset index item.wire.size).toOption
      let child ← provedChild input offset (item.prove (ctx.element n index) 0)
      rest.lend (ctx.element n index) 0 child
    else some none
  | optional align inner, _, present rest, ctx, _, input =>
    if input.isAllZero then some none
    else do
      let child ← provedChild input (presentPlace align inner).offset (inner.prove ctx 0)
      rest.lend ctx 0 child
  | tagged ir payload, _, variant k rest, _, tag, input => do
    match ← TaggedMut.accessor ir payload tag input k with
    | none => some none
    | some child => rest.lend .root 0 child

/-- What is done through the handle of a part is done to the whole. -/
def session {W F : Layout} (input : Input W) (offset : ℕ) (prove : Input F → Outcome SchemaError Unit)
    (run : Input F → Option (Trace (Input F) (Except SchemaError Unit))) :
    Option (Trace (Input W) (Except SchemaError Unit)) := do
  let child ← provedChild input offset prove
  let trace ← run child
  some (trace.within (input.release offset))

/-- Runs a program; `none` is a panic of one of its calls. -/
def Mutation.run : {c : Category} → Mutation c → Context → ℕ → Input c.wire →
    Option (Trace (Input c.wire) (Except SchemaError Unit))
  | _, call op, ctx, tag, input => do
    let answer ← op.perform ctx tag input
    some [answer]
  | _, skip, _, _, _ => some []
  | _, seq first rest, ctx, tag, input => do
    let done ← first.run ctx tag input
    let more ← rest.run ctx tag (Trace.final input done)
    some (done ++ more)
  | struct ir fields, field i _ m, _, _, input => do
    let tag ← ir.siblingTag
      (fun t => (provedTag ir fields (fun i => (fields i).prove) input t).value?) i
    session input (fieldPlace ir fields i).offset ((fields i).prove (ir.context i) tag)
      (m.run (ir.context i) tag)
  | array item n, element index m, ctx, _, input =>
    if index < n then do
      let offset ← (checkedElementOffset index item.wire.size).toOption
      session input offset (item.prove (ctx.element n index) 0) (m.run (ctx.element n index) 0)
    else some []
  | optional align inner, present m, ctx, _, input =>
    if input.isAllZero then some []
    else session input (presentPlace align inner).offset (inner.prove ctx 0) (m.run ctx 0)
  | tagged ir payload, variant k m, _, tag, input =>
    if tag = ir.tag k then session input 0 ((payload k).prove .root 0) (m.run .root 0)
    else some []

end Category

end ZeroSchema
