import ZeroSchema.Library.Rows
import ZeroSchema.Mutation.Position
import ZeroSchema.Schema.Fault

/-! Arrays of arrays: the contexts that the handles of the rows and the adapters of the levels
accumulate, and the positional operations as loops over the innermost elements. -/
namespace ZeroSchema
open Storage Control Rows

namespace Category

/-- Rows of rows of elements, with the lengths of the levels outermost first. -/
@[reducible] def nested (leaf : Category) : List ℕ → Category
  | [] => leaf
  | n :: dims => array (nested leaf dims) n

/-- What an innermost element is: an element that is not a row. -/
def isLeaf : Category → Bool
  | array _ _ => false
  | c => c.isElement

/-- The value of an element of a value of rows. -/
def valueAt (leaf : Category) : {dims : List ℕ} → (nested leaf dims).Logical → Index dims →
    leaf.Logical
  | [], v, _ => v
  | _ :: _, v, idx => valueAt leaf (v idx.1) idx.2

/-- The way from an array field to the handle of a row: one `get_mut` for every level. -/
def Position.rows (leaf : Category) : {outer inner : List ℕ} → Index outer →
    Position (nested leaf (outer ++ inner)) (nested leaf inner)
  | [], _, _ => .here
  | _ :: _, _, rows => .element rows.1 (Position.rows leaf rows.2)

end Category

variable [Target]

/-- The context that is accumulated on the way to an element, level by level. -/
def Context.descend (ctx : Context) : {dims : List ℕ} → Index dims → Context
  | [], _ => ctx
  | n :: _, idx => (ctx.element n idx.1).descend idx.2

namespace Context

omit [Target] in
theorem leaf_path (ctx : Context) (kind : ErrorKind) {e : SchemaError} (he : e = ctx.leaf kind) :
    ∃ rest, e.path = ctx.path ++ rest := by
  refine ⟨[], ?_⟩
  rw [he, List.append_nil]
  rfl

omit [Target] in
theorem below_path (ctx : Context) {x : Outcome SchemaError Unit} {e : SchemaError}
    (hx : x.mapErr ctx.below = .err e) : ∃ rest, e.path = ctx.path ++ rest := by
  obtain ⟨child, -, rfl⟩ := Outcome.mapErr_eq_err.mp hx
  exact ⟨child.path, rfl⟩

theorem descend_append {outer inner : List ℕ} (ctx : Context) (rows : Index outer)
    (idx : Index inner) : ctx.descend (rows.append idx) = (ctx.descend rows).descend idx := by
  induction outer generalizing ctx with
  | nil => rfl
  | cons n outer ih => exact ih (ctx.element n rows.1) rows.2

theorem dims_descend {dims : List ℕ} (ctx : Context) (idx : Index dims) :
    (ctx.descend idx).dims = ctx.dims ++ dims := by
  induction dims generalizing ctx with
  | nil => exact (List.append_nil _).symm
  | cons n dims ih =>
    rw [descend, ih, element, List.append_assoc]
    rfl

theorem field_descend {dims : List ℕ} (ctx : Context) (idx : Index dims) :
    (ctx.descend idx).field = ctx.field := by
  induction dims generalizing ctx with
  | nil => rfl
  | cons n dims ih => exact ih (ctx.element n idx.1) idx.2

/-- The saturating steps accumulate the row-major rank below the starting position. -/
theorem flat_descend {dims : List ℕ} (hpos : ∀ n ∈ dims, 1 ≤ n) (ctx : Context)
    (hfits : (ctx.flat + 1) * dims.prod ≤ usizeMax) (idx : Index dims) :
    (ctx.descend idx).flat = ctx.flat * dims.prod + idx.rank := by
  induction dims generalizing ctx with
  | nil => simp [descend, Index.rank]
  | cons n dims ih =>
    have hdims : ∀ m ∈ dims, 1 ≤ m := fun m hm => hpos m (List.mem_cons_of_mem n hm)
    have hprod : 0 < dims.prod := List.prod_pos_iff_forall_pos_nat.mpr hdims
    rw [List.prod_cons] at hfits
    have hstep := flat_element idx.1.isLt hprod hfits
    have hrow := ih hdims (ctx.element n idx.1) (by rw [hstep.1]; exact hstep.2) idx.2
    rw [descend, hrow, hstep.1, List.prod_cons, Index.rank, Nat.add_mul, Nat.mul_assoc,
      Nat.add_assoc]

/-- Below a field, the position of an element decodes to its indices. -/
theorem descend_decodes {dims : List ℕ} (hdims : dims ≠ []) (hpos : ∀ n ∈ dims, 1 ≤ n)
    (hfits : dims.prod ≤ usizeMax) (schema field : String) (idx : Index dims) :
    let ctx := (ofField schema field).descend idx
    ctx.flat = idx.rank ∧ indexPath ctx.dims ctx.flat = idx.toList ∧
      ctx.path = .field field :: idx.toList.map .index := by
  have hbound : ((ofField schema field).flat + 1) * dims.prod ≤ usizeMax := by
    rwa [ofField, Nat.zero_add, Nat.one_mul]
  have hflat : ((ofField schema field).descend idx).flat = idx.rank := by
    rw [flat_descend hpos _ hbound idx, ofField, Nat.zero_mul, Nat.zero_add]
  have hlevels : ((ofField schema field).descend idx).dims = dims :=
    dims_descend (ofField schema field) idx
  have hindices : indexPath dims idx.rank = idx.toList := by
    cases dims with
    | nil => exact absurd rfl hdims
    | cons n dims => exact Index.split_rank idx
  refine ⟨hflat, by rw [hflat, hlevels, hindices], ?_⟩
  rw [path, hflat, hlevels, hindices, field_descend]
  rfl

end Context

namespace Category

/-- The access proof of an innermost element. -/
def proveElement (leaf : Category) (ctx : Context) (input : Input leaf.wire) :
    Outcome SchemaError Unit := leaf.wrap ctx (leaf.prove ctx 0 input)

/-- The check of a new innermost element, in place or initializing. -/
def preflightElement (leaf : Category) (initializing : Bool) (ctx : Context)
    (input : Input leaf.wire) (v : leaf.Logical) : Outcome SchemaError Unit :=
  leaf.childFailure ctx .capacityExceeded (leaf.preflightLogical initializing ctx 0 input v)

/-- The storage of an element of rows. -/
def inputAt (leaf : Category) : {dims : List ℕ} → Input (nested leaf dims).wire → Index dims →
    Input leaf.wire
  | [], input, _ => input
  | _ :: dims, input, idx =>
    inputAt leaf (input.child (elementPlace (nested leaf dims) idx.1)) idx.2

/-- A row is proved element by element. -/
theorem wrap_prove_nested (leaf : Category) {dims : List ℕ} (ctx : Context)
    (input : Input (nested leaf dims).wire) :
    (nested leaf dims).wrap ctx ((nested leaf dims).prove ctx 0 input) =
      Index.walk fun idx => leaf.proveElement (ctx.descend idx) (leaf.inputAt input idx) := by
  induction dims generalizing ctx with
  | nil => rfl
  | cons n dims ih =>
    change (array (nested leaf dims) n).prove ctx 0 input = _
    rw [prove, Index.walk]
    congr 1
    funext j
    rw [selectElement_eq, Context.onLayout_ok, Outcome.ok_bind]
    exact ih (ctx.element n j) (input.child (elementPlace (nested leaf dims) j))

theorem childFailure_preflight_nested (leaf : Category) {dims : List ℕ} (initializing : Bool)
    (ctx : Context) (input : Input (nested leaf dims).wire) (v : (nested leaf dims).Logical) :
    (nested leaf dims).childFailure ctx .capacityExceeded
        ((nested leaf dims).preflightLogical initializing ctx 0 input v) =
      Index.walk fun idx => leaf.preflightElement initializing (ctx.descend idx)
        (leaf.inputAt input idx) (leaf.valueAt v idx) := by
  induction dims generalizing ctx with
  | nil => rfl
  | cons n dims ih =>
    change (array (nested leaf dims) n).preflightLogical initializing ctx 0 input v = _
    rw [preflightLogical, Index.walk]
    congr 1
    funext j
    rw [selectElement_eq, Context.onLayout_ok, Outcome.ok_bind]
    exact ih (ctx.element n j) (input.child (elementPlace (nested leaf dims) j)) (v j)

/-- The handle of a row accumulates the context of the row and works on its storage. -/
theorem Position.lend_rows (leaf : Category) {outer inner : List ℕ} (rows : Index outer)
    {ctx : Context} {input : Input (nested leaf (outer ++ inner)).wire}
    {handle : Lent (nested leaf inner)}
    (hlend : (Position.rows leaf rows).lend ctx 0 input = some (some handle)) :
    handle.ctx = ctx.descend rows ∧ ∀ idx : Index inner,
      leaf.inputAt handle.input idx = leaf.inputAt input (rows.append idx) := by
  induction outer generalizing ctx with
  | nil =>
    rw [Position.rows, lend] at hlend
    obtain rfl := Option.some.inj (Option.some.inj hlend)
    exact ⟨rfl, fun _ => rfl⟩
  | cons n outer ih =>
    rw [Position.rows, lend, if_pos rows.1.isLt] at hlend
    obtain ⟨offset, hoffset, hlend⟩ := Option.bind_eq_some_iff.mp hlend
    obtain ⟨child, hchild, hlend⟩ := Option.bind_eq_some_iff.mp hlend
    have hplace : checkedElementOffset rows.1 (nested leaf (outer ++ inner)).wire.size =
        .ok (elementPlace (nested leaf (outer ++ inner)) rows.1).offset :=
      checkedElementOffset_eq input rows.1
    have hselect := (provedChild_eq_some.mp hchild).1
    rw [hplace] at hoffset
    obtain rfl := Option.some.inj hoffset
    rw [Input.subrange_place] at hselect
    obtain rfl := Except.ok.inj hselect
    exact ih rows.2 hlend

/-- The proof of an element reports below the path of the element. -/
theorem proveElement_path {leaf : Category} (hleaf : leaf.isLeaf = true) {ctx : Context}
    {input : Input leaf.wire} {e : SchemaError} (h : leaf.proveElement ctx input = .err e) :
    ∃ rest, e.path = ctx.path ++ rest := by
  cases leaf with
  | primitive p endian => cases h
  | bool =>
    change Category.bool.prove ctx 0 input = _ at h
    rw [prove] at h
    cases hb : BoolWire.decode (BoolWire.raw input.bytes) with
    | some v =>
      rw [hb] at h
      cases h
    | none =>
      rw [hb] at h
      exact ctx.leaf_path .invalidBool (Outcome.err.inj h).symm
  | string s =>
    change (string s).prove ctx 0 input = _ at h
    rw [prove, StringIr.read_eq] at h
    cases hd : s.decode input.bytes with
    | ok v =>
      rw [hd] at h
      cases h
    | error error =>
      rw [hd] at h
      exact ctx.leaf_path error.kind (Outcome.err.inj h).symm
  | scalarEnum ir => exact ctx.below_path h
  | struct ir fields => exact ctx.below_path h
  | _ => cases hleaf

theorem preflightElement_path {leaf : Category} (hleaf : leaf.isLeaf = true)
    {initializing : Bool} {ctx : Context} {input : Input leaf.wire} {v : leaf.Logical}
    {e : SchemaError} (h : leaf.preflightElement initializing ctx input v = .err e) :
    ∃ rest, e.path = ctx.path ++ rest := by
  cases leaf with
  | primitive p endian => cases h
  | bool => cases h
  | string s =>
    change s.preflight ctx input v = _ at h
    rw [StringIr.preflight_eq] at h
    cases hc : s.check v with
    | ok u =>
      rw [hc] at h
      cases h
    | error error =>
      rw [hc] at h
      exact ctx.leaf_path error.kind (Outcome.err.inj h).symm
  | scalarEnum ir => cases h
  | struct ir fields =>
    obtain ⟨child, -, he⟩ := Outcome.mapErr_eq_err.mp h
    exact ctx.leaf_path .capacityExceeded he.symm
  | _ => cases hleaf

/-- An operation that asks the elements of a row in the order of their ranks, each under its own
context, and reports the first failure below the path of its element. -/
structure Positional {dims : List ℕ} (operation : Outcome SchemaError Unit)
    (place : Index dims → Context) (check : Index dims → Context → Outcome SchemaError Unit) :
    Prop where
  walks : operation = Index.walk fun idx => check idx (place idx)
  failure : ∀ e, operation = .err e → ∃ idx, check idx (place idx) = .err e ∧
    (∀ earlier, earlier.rank < idx.rank → check earlier (place earlier) = .ok ()) ∧
    ∃ rest, e.path = (place idx).path ++ rest

omit [Target] in
theorem Positional.of_walk {dims : List ℕ} {operation : Outcome SchemaError Unit}
    {place : Index dims → Context} {check : Index dims → Context → Outcome SchemaError Unit}
    (hpath : ∀ idx ctx e, check idx ctx = .err e → ∃ rest, e.path = ctx.path ++ rest)
    (hwalk : operation = Index.walk fun idx => check idx (place idx)) :
    Positional operation place check where
  walks := hwalk
  failure e he := by
    rw [hwalk] at he
    obtain ⟨idx, hidx, hearlier⟩ := Index.walk_eq_err.mp he
    exact ⟨idx, hidx, hearlier, hpath idx (place idx) e hidx⟩

/-- The positional operations of the handle of a row: the access proof, the two preflights of a
value, `set` of an element and `copy_from` of all. -/
structure RowOperations (leaf : Category) {n : ℕ} {inner : List ℕ}
    (handle : Lent (nested leaf (n :: inner))) (place : Index (n :: inner) → Context)
    (stored : Index (n :: inner) → Input leaf.wire) : Prop where
  prove : Positional ((nested leaf (n :: inner)).prove handle.ctx 0 handle.input) place
    fun idx ctx => leaf.proveElement ctx (stored idx)
  preflight : ∀ initializing v,
    Positional ((nested leaf (n :: inner)).preflightLogical initializing handle.ctx 0 handle.input v)
      place fun idx ctx => leaf.preflightElement initializing ctx (stored idx) (leaf.valueAt v idx)
  set : ∀ (i : Fin n) (v : (nested leaf inner).Logical), ∃ check,
    ArrayMut.set (nested leaf inner) n handle.ctx handle.input i v = twoPass handle.input check
      (commitElement (nested leaf inner) n i ((nested leaf inner).commitLogical v false)) ∧
    Positional check (fun idx => place (i, idx)) fun idx ctx =>
      leaf.preflightElement false ctx (stored (i, idx)) (leaf.valueAt v idx)
  copyFrom : ∀ (values : List (nested leaf inner).Logical) (h : values.length = n),
    let v : (nested leaf (n :: inner)).Logical := fun j => values.get (j.cast h.symm)
    ∃ check, ArrayMut.copyFrom (nested leaf inner) n handle.ctx handle.input values =
      twoPass handle.input check ((nested leaf (n :: inner)).commitLogical v false) ∧
    Positional check place fun idx ctx =>
      leaf.preflightElement false ctx (stored idx) (leaf.valueAt v idx)

section Handle
variable {leaf : Category} {n : ℕ} {inner : List ℕ} (handle : Lent (nested leaf (n :: inner)))

/-- A handle that accumulated its own context gives every element the context that is
accumulated on the way to it. -/
theorem rowOperations_descend (hleaf : leaf.isLeaf = true) :
    RowOperations leaf handle handle.ctx.descend (leaf.inputAt handle.input) where
  prove := by
    apply Positional.of_walk (fun _ _ _ he => proveElement_path hleaf he)
    exact wrap_prove_nested leaf handle.ctx handle.input
  preflight initializing v := by
    apply Positional.of_walk (fun _ _ _ he => preflightElement_path hleaf he)
    exact childFailure_preflight_nested leaf initializing handle.ctx handle.input v
  set i v := by
    refine ⟨_, setElement_eq handle.ctx handle.input i.isLt v, ?_⟩
    apply Positional.of_walk (fun _ _ _ he => preflightElement_path hleaf he)
    exact childFailure_preflight_nested leaf false (handle.ctx.element n i)
      (handle.input.child (elementPlace (nested leaf inner) i)) v
  copyFrom values h := by
    refine ⟨_, copyElements_eq h, ?_⟩
    apply Positional.of_walk (fun _ _ _ he => preflightElement_path hleaf he)
    exact childFailure_preflight_nested leaf false handle.ctx handle.input fun j =>
      values.get (j.cast h.symm)

end Handle

/-- Every positional operation, on an array field and on every row handle that is lent below it,
asks an element under the context whose flat position is the row-major rank of the element; that
position decodes to the indices of the element, and no two elements share a path. -/
theorem positions_decode (leaf : Category) (hleaf : leaf.isLeaf = true) (outer inner : List ℕ)
    (n : ℕ) (hpos : ∀ d ∈ outer ++ n :: inner, 1 ≤ d)
    (hfits : (outer ++ n :: inner).prod ≤ usizeMax) (schema field : String) :
    let place := fun idx : Index (outer ++ n :: inner) => (Context.ofField schema field).descend idx
    (∀ idx, (place idx).flat = idx.rank ∧
      Context.indexPath (place idx).dims (place idx).flat = idx.toList ∧
      (place idx).path = .field field :: idx.toList.map .index) ∧
    Function.Injective (fun idx => (place idx).path) ∧
    ∀ (input : Input (nested leaf (outer ++ n :: inner)).wire) (rows : Index outer)
      (handle : Lent (nested leaf (n :: inner))),
      (Position.rows leaf rows).lend (.ofField schema field) 0 input = some (some handle) →
      RowOperations leaf handle (fun idx => place (rows.append idx))
        fun idx => leaf.inputAt input (rows.append idx) := by
  intro place
  have hplace (idx : Index (outer ++ n :: inner)) :=
    Context.descend_decodes (by simp) hpos hfits schema field idx
  refine ⟨hplace, ?_, ?_⟩
  · intro idx idx' h
    have hpaths : (place idx).path = (place idx').path := h
    rw [(hplace idx).2.2, (hplace idx').2.2] at hpaths
    have hindex : Function.Injective ErrorPathSegment.index := fun _ _ h => by injection h
    exact Index.toList_injective (List.map_injective_iff.mpr hindex (List.cons_eq_cons.mp hpaths).2)
  · intro input rows handle hlend
    obtain ⟨hctx, hinput⟩ := Position.lend_rows leaf rows hlend
    have hoperations := rowOperations_descend handle hleaf
    have hcontexts : handle.ctx.descend = fun idx : Index (n :: inner) => place (rows.append idx) := by
      funext idx
      rw [hctx, ← Context.descend_append]
    have hstored : leaf.inputAt handle.input =
        fun idx : Index (n :: inner) => leaf.inputAt input (rows.append idx) := funext hinput
    rwa [hcontexts, hstored] at hoperations

omit [Target] in
theorem positions_decode_grid :
    letI := Target.lp64
    let place := fun idx : Index [2, 3] => (Context.ofField "Board" "grid").descend idx
    let row : Index [2] := (1, ())
    (place (1, 2, ())).path = [.field "grid", .index 1, .index 2] ∧
    ∃ (input : Input (nested bool [2, 3]).wire) (handle : Lent (nested bool [3])),
      (Position.rows bool row).lend (.ofField "Board" "grid") 0 input = some (some handle) ∧
      RowOperations bool handle (fun idx => place (row.append idx))
        fun idx => bool.inputAt input (row.append idx) := by
  let _ := Target.lp64
  intro place row
  let input : Input (nested bool [2, 3]).wire := ⟨64, Bytes.zero 6, by decide, by decide⟩
  let p : Position (nested bool [2, 3]) (nested bool [3]) := Position.rows bool row
  obtain ⟨hplace, -, hrows⟩ :=
    positions_decode bool rfl [2] [] 3 (by decide) (by decide) "Board" "grid"
  have hsome : ((p.lend (.ofField "Board" "grid") 0 input).bind id).isSome = true := by decide
  obtain ⟨handle, hhandle⟩ := Option.isSome_iff_exists.mp hsome
  obtain ⟨lent, hlend, hid⟩ := Option.bind_eq_some_iff.mp hhandle
  obtain rfl : lent = some handle := hid
  exact ⟨(hplace (1, 2, ())).2.2, input, handle, hlend, hrows input row handle hlend⟩

end Category

end ZeroSchema
