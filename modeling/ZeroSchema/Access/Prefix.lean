import ZeroSchema.Mutation.Root

/-! Access to the leading bytes of a longer span. The split comes before every other check,
and an exclusive access that was split off never reaches the rest of the memory. -/
namespace ZeroSchema
open Storage Control Category
variable [Target]

namespace Slice
variable {n k : ℕ} (s : Slice n)

/-- The leading bytes, and the bytes after them. -/
def take (h : k ≤ n) : Slice k where
  address := s.address
  bytes := (⟨0, by omega⟩ : Cell n k).get s.bytes
  fits := h.trans s.fits

def drop (h : k ≤ n) : Slice (n - k) where
  address := s.address + k
  bytes := (⟨k, by omega⟩ : Cell n (n - k)).get s.bytes
  fits := (Nat.sub_le n k).trans s.fits

def splitAtChecked (k : ℕ) : Option (Slice k × Slice (n - k)) :=
  if h : k ≤ n then some (s.take h, s.drop h) else none

/-- The memory after its leading bytes were written. -/
def write (h : k ≤ n) (x : Bytes k) : Slice n :=
  { s with bytes := (⟨0, by omega⟩ : Cell n k).put s.bytes x }

theorem take_write (h : k ≤ n) (x : Bytes k) : ((s.write h x).take h).bytes = x := Cell.get_put _ _ _

/-- What is written in front leaves the rest alone. -/
theorem drop_write (h : k ≤ n) (x : Bytes k) : (s.write h x).drop h = s.drop h := by
  have hdisjoint : Disjoint (⟨k, by omega⟩ : Cell n (n - k)).region
      (⟨0, by omega⟩ : Cell n k).region := by
    apply Disjoint.symm
    apply Cell.disjoint_of_le
    show 0 + k ≤ k
    omega
  have hbytes := Cell.get_put_of_disjoint hdisjoint s.bytes x
  unfold drop write
  rw [hbytes]

theorem write_take (h : k ≤ n) : s.write h (s.take h).bytes = s := by
  unfold write take
  rw [Cell.put_get]

end Slice

/-- Fewer bytes than the wire has fail before any alignment test. -/
def Input.fromPrefix (W : Layout) {n : ℕ} (s : Slice n) :
    Except LayoutError (Input W × Slice (n - W.size)) :=
  match s.splitAtChecked W.size with
  | none => .error (.insufficientBytes W.size n)
  | some (leading, remainder) => (Input.fromChecked W leading).map (·, remainder)

namespace Schema
variable (S : Schema) {n : ℕ}

def accessPrefix (s : Slice n) : Outcome SchemaError (Input S.wire × Slice (n - S.wire.size)) := do
  let (input, remainder) ← S.category.onLayout (Input.fromPrefix S.wire s)
  S.category.prove .root 0 input
  .ok (input, remainder)

def accessMutPrefix (s : Slice n) :
    Outcome SchemaError (Input S.wire × Slice (n - S.wire.size)) := do
  let (input, remainder) ← S.category.onLayout (Input.fromPrefix S.wire s)
  S.category.prove .root 0 input
  .ok (input, remainder)

/-- What a program gets back that opens the memory exclusively before it runs: the error of
the access, or the answers of its calls. -/
abbrev Session (n : ℕ) : Type :=
  Option (Except SchemaError (List (Except SchemaError Unit)) × Slice n)

/-- A program over an exact span, with the memory that it leaves. -/
def sessionMut (s : Slice S.wire.size) (m : Mutation S.category) : Session S.wire.size :=
  match S.accessMut s with
  | .ok input => (m.run .root 0 input).map fun trace =>
    (.ok (trace.map Prod.fst), s.write le_rfl (Trace.final input trace).bytes)
  | .err e => some (.error e, s)
  | .unreachable => none

/-- A program over the leading bytes of a span, with the memory that it leaves. -/
def sessionMutPrefix (s : Slice n) (m : Mutation S.category) : Session n :=
  match S.accessMutPrefix s with
  | .ok (input, _) => (m.run .root 0 input).map fun trace =>
    (.ok (trace.map Prod.fst),
      if h : S.wire.size ≤ n then s.write h (Trace.final input trace).bytes else s)
  | .err e => some (.error e, s)
  | .unreachable => none

variable {S} {s : Slice n}

theorem fromPrefix_short {W : Layout} (h : n < W.size) :
    Input.fromPrefix W s = .error (.insufficientBytes W.size n) := by
  have hsplit : s.splitAtChecked W.size = none := dif_neg (by omega)
  rw [Input.fromPrefix, hsplit]

theorem fromPrefix_long {W : Layout} (h : W.size ≤ n) :
    Input.fromPrefix W s = (Input.fromChecked W (s.take h)).map (·, s.drop h) := by
  have hsplit : s.splitAtChecked W.size = some (s.take h, s.drop h) := dif_pos h
  rw [Input.fromPrefix, hsplit]

theorem accessPrefix_short (h : n < S.wire.size) :
    S.accessPrefix s = .err (.layout S.name (.insufficientBytes S.wire.size n)) := by
  rw [accessPrefix, fromPrefix_short h]
  rfl

theorem accessPrefix_long (h : S.wire.size ≤ n) :
    S.accessPrefix s = (S.access (s.take h) >>= fun input => .ok (input, s.drop h)) := by
  rw [accessPrefix, fromPrefix_long h, access]
  cases Input.fromChecked S.wire (s.take h) with
  | error e => rfl
  | ok input =>
    change (S.category.prove .root 0 input >>= _) =
      ((S.category.prove .root 0 input >>= fun _ => .ok input) >>= _)
    cases S.category.prove .root 0 input <;> rfl

/-- A program over a longer span does what it does over the leading bytes alone. -/
theorem sessionMutPrefix_long (h : S.wire.size ≤ n) (m : Mutation S.category) :
    S.sessionMutPrefix s m = (S.sessionMut (s.take h) m).map fun answer =>
      (answer.1, s.write h answer.2.bytes) := by
  have haccess : S.accessMutPrefix s =
      (S.accessMut (s.take h) >>= fun input => .ok (input, s.drop h)) := accessPrefix_long h
  rw [sessionMutPrefix, haccess, sessionMut]
  cases S.accessMut (s.take h) with
  | ok input =>
    change (m.run .root 0 input).map _ = ((m.run .root 0 input).map _).map _
    cases m.run .root 0 input with
    | none => rfl
    | some trace =>
      have hwrite := (s.take h).take_write le_rfl (Trace.final input trace).bytes
      have hbytes : ((s.take h).write le_rfl (Trace.final input trace).bytes).bytes =
          (Trace.final input trace).bytes :=
        (Place.put_whole (s.take h).bytes (Trace.final input trace).bytes)
      simp only [Option.map_some, dif_pos h, hbytes]
  | err e =>
    show some (Except.error e, s) = some (Except.error e, s.write h (s.take h).bytes)
    rw [s.write_take h]
  | unreachable => rfl

theorem sessionMutPrefix_short (h : n < S.wire.size) (m : Mutation S.category) :
    S.sessionMutPrefix s m =
      some (.error (.layout S.name (.insufficientBytes S.wire.size n)), s) := by
  have haccess : S.accessMutPrefix s =
      .err (.layout S.name (.insufficientBytes S.wire.size n)) := accessPrefix_short h
  rw [sessionMutPrefix, haccess]

/-- Whatever a program did, the memory behind the leading bytes is as it was. -/
theorem sessionMutPrefix_drop (h : S.wire.size ≤ n) {m : Mutation S.category}
    {result : Except SchemaError (List (Except SchemaError Unit))} {after : Slice n}
    (hrun : S.sessionMutPrefix s m = some (result, after)) : after.drop h = s.drop h := by
  rw [sessionMutPrefix_long h] at hrun
  obtain ⟨answer, -, hanswer⟩ := Option.map_eq_some_iff.mp hrun
  obtain rfl : s.write h answer.2.bytes = after := congrArg Prod.snd hanswer
  exact s.drop_write h answer.2.bytes

/-- A rejected access writes nothing. -/
theorem sessionMutPrefix_rejected {m : Mutation S.category} {e : SchemaError} {after : Slice n}
    (hrun : S.sessionMutPrefix s m = some (.error e, after)) : after = s := by
  unfold sessionMutPrefix at hrun
  cases haccess : S.accessMutPrefix s with
  | ok opened =>
    rw [haccess] at hrun
    obtain ⟨trace, -, htrace⟩ := Option.map_eq_some_iff.mp hrun
    cases htrace
  | err e' =>
    rw [haccess] at hrun
    obtain rfl := congrArg Prod.snd (Option.some.inj hrun)
    rfl
  | unreachable =>
    rw [haccess] at hrun
    cases hrun

theorem sessionMut_rejected {s : Slice S.wire.size} {m : Mutation S.category} {e : SchemaError}
    {after : Slice S.wire.size} (hrun : S.sessionMut s m = some (.error e, after)) : after = s := by
  unfold sessionMut at hrun
  cases haccess : S.accessMut s with
  | ok opened =>
    rw [haccess] at hrun
    obtain ⟨trace, -, htrace⟩ := Option.map_eq_some_iff.mp hrun
    cases htrace
  | err e' =>
    rw [haccess] at hrun
    obtain rfl := congrArg Prod.snd (Option.some.inj hrun)
    rfl
  | unreachable =>
    rw [haccess] at hrun
    cases hrun

/-- Access to the leading bytes of a span of any length and alignment. A span that is too short
is rejected as such; otherwise the access, and every program over the handle that the exclusive
one returns, does what it does over an exact span of the leading bytes, whatever comes behind
them. The bytes behind are handed back and never written, and a rejected access has written
nothing at all. -/
theorem prefix_access_is_exact_access (S : Schema) {n : ℕ} (s : Slice n) :
    (n < S.wire.size →
      S.accessPrefix s = .err (.layout S.name (.insufficientBytes S.wire.size n)) ∧
      S.accessMutPrefix s = .err (.layout S.name (.insufficientBytes S.wire.size n)) ∧
      ∀ m, S.sessionMutPrefix s m =
        some (.error (.layout S.name (.insufficientBytes S.wire.size n)), s)) ∧
    (∀ h : S.wire.size ≤ n,
      S.accessPrefix s = (S.access (s.take h) >>= fun input => .ok (input, s.drop h)) ∧
      S.accessMutPrefix s = (S.accessMut (s.take h) >>= fun input => .ok (input, s.drop h)) ∧
      ∀ m, S.sessionMutPrefix s m = (S.sessionMut (s.take h) m).map (fun answer =>
          (answer.1, s.write h answer.2.bytes)) ∧
        ∀ result after, S.sessionMutPrefix s m = some (result, after) →
          after.drop h = s.drop h) ∧
    (∀ m e after, S.sessionMutPrefix s m = some (.error e, after) → after = s) ∧
    ∀ (s : Slice S.wire.size) m e after, S.sessionMut s m = some (.error e, after) → after = s := by
  refine ⟨fun h => ⟨accessPrefix_short h, accessPrefix_short h, sessionMutPrefix_short h⟩,
    fun h => ⟨accessPrefix_long h, accessPrefix_long h, fun m => ⟨sessionMutPrefix_long h m, ?_⟩⟩,
    fun m e after => sessionMutPrefix_rejected, fun s m e after => sessionMut_rejected⟩
  intro result after hrun
  exact sessionMutPrefix_drop h hrun

end Schema

end ZeroSchema
