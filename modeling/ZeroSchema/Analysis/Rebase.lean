import ZeroSchema.Analysis.Tree
import ZeroSchema.Library.Affix

/-! Generated support stands in a module of its own below the declaration. A type that is moved
there is rewritten so that it still means what it meant: its paths start one module further up, and
its free lifetimes are erased, or rebound to one that the declaration does not use. -/
namespace ZeroSchema
open Scope

/-- Rebases a path into a child module: `self` becomes `super`, and one more `super` stands before
a first `super`. -/
def PathRoot.rebase : PathRoot → PathRoot
  | self supers => super supers
  | super supers => super (supers + 1)
  | root => root

/-! ### Meaning -/

/-- What the root of a path names. A module is given from the innermost name outwards. -/
inductive Origin (σ : Type)
  | missing
  | external
  | lexical (scope : σ)
  | item (module : List String)
deriving DecidableEq

namespace PathRoot
variable {σ : Type} (scope : List String → σ)

def ascend (module : List String) (levels : ℕ) : Origin σ :=
  if levels ≤ module.length then .item (module.drop levels) else .missing

/-- The root of a path in a module with the given lexical scopes. -/
def resolve (module : List String) : PathRoot → Origin σ
  | global => .external
  | name => .lexical (scope module)
  | crate => .item []
  | self supers => ascend module supers
  | super supers => ascend module (supers + 1)

variable {scope}

theorem ascend_cons (module : List String) (child : String) (levels : ℕ) :
    ascend (child :: module) (levels + 1) = (ascend module levels : Origin σ) := by
  simp [ascend]

/-- A child module that sees the names of its parent resolves a rebased path as the parent
resolves the path. -/
theorem resolve_rebase {module : List String} {child : String}
    (hscope : scope (child :: module) = scope module) (root : PathRoot) :
    root.rebase.resolve scope (child :: module) = root.resolve scope module := by
  cases root with
  | global => rfl
  | name => exact congrArg Origin.lexical hscope
  | crate => rfl
  | self supers => exact ascend_cons module child supers
  | super supers => exact ascend_cons module child (supers + 1)

end PathRoot

/-- What spelled syntax means in a module: its paths are resolved, its free lifetimes have values
and its bound ones refer to their binders. -/
def Tree.denote {σ α : Type} (scope : List String → σ) (module : List String) (values : String → α)
    {k : TreeSort} (t : Tree String PathRoot k) : Tree (Referent α) (Origin σ) k :=
  t.visit List.cons (refer values) (PathRoot.resolve scope module) []

/-! ### The traversals -/

def supportLifetime (bound : Frames) (lifetime : String) : String :=
  if lifetime ≠ "static" ∧ ¬bound.Bound lifetime then "static" else lifetime

def declaredLifetime (source : List String) (replacement : String) (bound : Frames)
    (lifetime : String) : String :=
  if lifetime ∈ source ∧ ¬bound.Bound lifetime then replacement else lifetime

/-- Moves a type into generated support and erases its free lifetimes. -/
def supportType (ty : RustType) : RustType := ty.visit List.cons supportLifetime PathRoot.rebase []

def rebasePath (path : RustPath) : RustPath :=
  path.visit List.cons supportLifetime PathRoot.rebase []

/-- Moves a type into generated support and leaves its lifetimes. -/
def logicalSourceType (ty : RustType) : RustType :=
  ty.visit List.cons (fun _ lifetime => lifetime) PathRoot.rebase []

/-- Erases the free lifetimes of a type where it stands. -/
def erasedSourceType (ty : RustType) : RustType := ty.visit List.cons supportLifetime id []

/-- The lifetime parameters that a declaration has. -/
def lifetimes : {k : TreeSort} → Tree String PathRoot k → List String
  | _, .lifetimeParam lifetime _ rest => lifetime :: lifetimes rest
  | _, .typeParam _ _ rest | _, .constParam _ _ rest | _, .typePredicate _ _ _ rest
  | _, .lifetimePredicate _ _ rest => lifetimes rest
  | _, _ => []

def rebindDeclaredSourceLifetimes {k : TreeSort} (generics : Generics) (t : Tree String PathRoot k)
    (lifetime : String) : Tree String PathRoot k :=
  t.visit List.cons (declaredLifetime (lifetimes generics) lifetime) id []

/-- A logical type in generated support, with every source lifetime rebound. -/
def reboundSupportType (generics : Generics) (ty : RustType) (lifetime : String) : RustType :=
  rebindDeclaredSourceLifetimes generics (logicalSourceType ty) lifetime

/-- The rebinder of the mutation code takes the names of a binder off again before it comes to what
stands behind the binder. -/
def rebindSourceType (generics : Generics) (ty : RustType) (lifetime : String) : RustType :=
  (logicalSourceType ty).visit (fun _ bound => bound)
    (declaredLifetime (lifetimes generics) lifetime) id []

def withoutLifetimes : {k : TreeSort} → Tree String PathRoot k → Tree String PathRoot k
  | _, .lifetimeParam _ _ rest => withoutLifetimes rest
  | _, .typeParam ident bounds rest => .typeParam ident bounds (withoutLifetimes rest)
  | _, .constParam ident ty rest => .constParam ident ty (withoutLifetimes rest)
  | _, .typePredicate names ty bounds rest => .typePredicate names ty bounds (withoutLifetimes rest)
  | _, .lifetimePredicate lifetime bounds rest =>
    .lifetimePredicate lifetime bounds (withoutLifetimes rest)
  | _, t => t

/-- One lifetime stands for all that were declared. -/
def logicalViewGenerics (original : Generics) (lifetime : String) : Generics :=
  rebindDeclaredSourceLifetimes original
    (.lifetimeParam lifetime .noBounds (withoutLifetimes original)) lifetime

/-- The generics of a declaration and the types of its fields or variants. -/
structure DeclaredTypes where
  generics : Generics
  types : List RustType

namespace DeclaredTypes

def names (ir : DeclaredTypes) : List String :=
  ir.generics.names ++ ir.types.flatMap Tree.names

def candidate (stem : String) (suffix : ℕ) : String :=
  if suffix = 0 then stem else stem ++ "_" ++ toString suffix

/-- The first candidate that the declaration does not spell. The search is over after as many
candidates as there are names and one. -/
def freshGeneratedLifetime (ir : DeclaredTypes) (stem : String) : Option String :=
  (search (candidate stem) ir.names (ir.names.length + 1) 0).map (candidate stem)

end DeclaredTypes

/-! ### What the traversals preserve -/

section
variable {σ α : Type} {scope : List String → σ} {module : List String} {child : String}
  {values : String → α} {k : TreeSort}

theorem supportLifetime_eq : supportLifetime = shield fun _ => "static" := by
  funext bound lifetime
  unfold supportLifetime shield
  by_cases hbound : bound.Bound lifetime
  · simp [hbound]
  · by_cases hstatic : lifetime = "static" <;> simp [hbound, hstatic]

theorem declaredLifetime_eq (source : List String) (replacement : String) :
    declaredLifetime source replacement =
      shield fun lifetime => if lifetime ∈ source then replacement else lifetime := by
  funext bound lifetime
  unfold declaredLifetime shield
  by_cases hbound : bound.Bound lifetime
  · simp [hbound]
  · simp [hbound]

/-- A traversal that renames the free lifetimes to names that no binder binds, and moves the roots
of paths to what they name in another module, changes the meaning as it changes the free names. -/
theorem denote_visit {rename : String → String} {root : PathRoot → PathRoot}
    {module' : List String} {P : List String → Prop}
    (hclear : ∀ frames : Frames, (∀ frame ∈ frames, P frame) → ∀ lifetime,
      ¬frames.Bound lifetime → ¬frames.Bound (rename lifetime))
    (hroot : ∀ r, (root r).resolve scope module' = r.resolve scope module)
    (t : Tree String PathRoot k) (ht : t.Binders P) :
    (t.visit List.cons (shield rename) root []).denote scope module' values =
      t.denote scope module fun lifetime => values (rename lifetime) := by
  unfold Tree.denote
  rw [Tree.visit_visit]
  let Q (frames frames' : Frames) : Prop := frames = frames' ∧ ∀ frame ∈ frames, P frame
  have hpush (names : List String) (frames frames' : Frames) (hnames : P names)
      (hq : Q frames frames') : Q (names :: frames) (names :: frames') := by
    obtain ⟨rfl, hframes⟩ := hq
    refine ⟨rfl, ?_⟩
    intro frame hframe
    rcases List.mem_cons.mp hframe with rfl | hframe
    · exact hnames
    · exact hframes frame hframe
  have hlife (frames frames' : Frames) (lifetime : String) (hq : Q frames frames') :
      refer values frames (shield rename frames lifetime) =
        refer (fun lifetime => values (rename lifetime)) frames' lifetime := by
    obtain ⟨rfl, hframes⟩ := hq
    exact refer_shield values rename (hclear frames hframes lifetime)
  exact Tree.visit_congr hpush hlife hroot t ht ⟨rfl, by simp⟩

theorem denote_supportLifetime {root : PathRoot → PathRoot} {module' : List String}
    (hroot : ∀ r, (root r).resolve scope module' = r.resolve scope module)
    (t : Tree String PathRoot k) (ht : t.Binders fun names => "static" ∉ names) :
    (t.visit List.cons supportLifetime root []).denote scope module' values =
      t.denote scope module fun _ => values "static" := by
  rw [supportLifetime_eq]
  refine denote_visit ?_ hroot t ht
  intro frames hframes lifetime _ hbound
  obtain ⟨frame, hframe, hmem⟩ := hbound
  exact hframes frame hframe hmem

theorem denote_declaredLifetime {root : PathRoot → PathRoot} {module' : List String}
    (hroot : ∀ r, (root r).resolve scope module' = r.resolve scope module) {source : List String}
    {replacement : String} (t : Tree String PathRoot k)
    (ht : t.Binders fun names => replacement ∉ names) :
    (t.visit List.cons (declaredLifetime source replacement) root []).denote scope module' values =
      t.denote scope module fun lifetime =>
        values (if lifetime ∈ source then replacement else lifetime) := by
  rw [declaredLifetime_eq]
  refine denote_visit ?_ hroot t ht
  intro frames hframes lifetime hfree hbound
  split_ifs at hbound
  · obtain ⟨frame, hframe, hmem⟩ := hbound
    exact hframes frame hframe hmem
  · exact hfree hbound

/-- Both ends of a rebound type in one traversal. -/
theorem reboundSupportType_eq (generics : Generics) (ty : RustType) (lifetime : String) :
    reboundSupportType generics ty lifetime =
      ty.visit List.cons (declaredLifetime (lifetimes generics) lifetime) PathRoot.rebase [] := by
  unfold reboundSupportType rebindDeclaredSourceLifetimes logicalSourceType
  rw [Tree.visit_visit]
  rfl

/-- Where no binder takes up a source lifetime, it does not matter that its names are forgotten. -/
theorem rebindSourceType_eq {generics : Generics} {ty : RustType} {lifetime : String}
    (h : ty.Binders fun names => ∀ name ∈ names, name ∉ lifetimes generics) :
    rebindSourceType generics ty lifetime = reboundSupportType generics ty lifetime := by
  unfold rebindSourceType reboundSupportType rebindDeclaredSourceLifetimes
  let Q (frames frames' : Frames) : Prop :=
    frames = [] ∧ ∀ frame ∈ frames', ∀ name ∈ frame, name ∉ lifetimes generics
  have hpush (names : List String) (frames frames' : Frames)
      (hnames : ∀ name ∈ names, name ∉ lifetimes generics) (hq : Q frames frames') :
      Q frames (names :: frames') := by
    refine ⟨hq.1, ?_⟩
    intro frame hframe
    rcases List.mem_cons.mp hframe with rfl | hframe
    · exact hnames
    · exact hq.2 frame hframe
  have hlife (frames frames' : Frames) (name : String) (hq : Q frames frames') :
      declaredLifetime (lifetimes generics) lifetime frames name =
        declaredLifetime (lifetimes generics) lifetime frames' name := by
    obtain ⟨rfl, hframes⟩ := hq
    unfold declaredLifetime
    by_cases hname : name ∈ lifetimes generics
    · have hfree : ¬frames'.Bound name := by
        rintro ⟨frame, hframe, hmem⟩
        exact hframes frame hframe name hmem hname
      rw [if_pos ⟨hname, Frames.not_bound_nil⟩, if_pos ⟨hname, hfree⟩]
    · rw [if_neg fun hand => hname hand.1, if_neg fun hand => hname hand.1]
  have hbinders : (logicalSourceType ty).Binders fun names =>
      ∀ name ∈ names, name ∉ lifetimes generics := Tree.binders_visit.mpr h
  exact Tree.visit_congr hpush hlife (fun _ => rfl) (logicalSourceType ty) hbinders ⟨rfl, by simp⟩

theorem binders_withoutLifetimes {P : List String → Prop} {t : Tree String PathRoot k}
    (h : t.Binders P) : (withoutLifetimes t).Binders P := by
  induction t with
  | lifetimeParam _ _ _ _ ih => exact ih h.2
  | typeParam _ _ _ _ ih | constParam _ _ _ _ ih | lifetimePredicate _ _ _ _ ih =>
    exact ⟨h.1, ih h.2⟩
  | typePredicate _ _ _ _ _ _ ih => exact ⟨h.1, h.2.1, h.2.2.1, ih h.2.2.2⟩
  | _ => exact h

/-- Every module of a crate sees the names of the crate. -/
def crateScope (module : List String) : Option String := module.getLast?

def byteType : RustType := .path (.rooted .name (.segment "u8" .noArgs .noSegments))

/-- `self::Inner<'a, for<'b> fn(&'b u8, &'a u8)>`. -/
def innerType : RustType :=
  .path (.rooted (.self 0) (.segment "Inner"
    (.lifetimeArg "a" (.typeArg (.bareFn ["b"] (.typeArg (.reference (some "b") false byteType)
      (.typeArg (.reference (some "a") false byteType) .noArgs))) .noArgs)) .noSegments))

theorem crateScope_models : crateScope ["support", "models"] = crateScope ["models"] := rfl

end

/-! ### Fresh lifetimes -/

namespace DeclaredTypes

theorem candidate_injective (stem : String) : Function.Injective (candidate stem) := by
  have hne (suffix : ℕ) : stem ++ "_" ++ toString suffix ≠ stem := by
    intro heq
    have hlength := congrArg String.length heq
    simp only [String.length_append] at hlength
    have hunderscore : "_".length = 1 := rfl
    omega
  intro m n h
  unfold candidate at h
  split_ifs at h with hm hn hn
  · omega
  · exact absurd h.symm (hne n)
  · exact absurd h (hne m)
  · have hnumbered : stem ++ "_" ++ toString m ++ "" = stem ++ "_" ++ toString n ++ "" := by rw [h]
    exact Affix.numbered_injective (stem ++ "_") "" hnumbered

/-- The search ends at the first candidate that is not spelled. -/
theorem exists_fresh (ir : DeclaredTypes) (stem : String) :
    ∃ suffix, ir.freshGeneratedLifetime stem = some (candidate stem suffix) ∧
      candidate stem suffix ∉ ir.names ∧ ∀ j < suffix, candidate stem j ∈ ir.names := by
  have hsearch : ∃ n, search (candidate stem) ir.names (ir.names.length + 1) 0 = some n :=
    exists_search (candidate_injective stem)
  obtain ⟨n, hn⟩ := hsearch
  obtain ⟨-, hfresh, hbefore⟩ := search_eq_some hn
  refine ⟨n, ?_, hfresh, fun j hj => hbefore j (Nat.zero_le j) hj⟩
  unfold freshGeneratedLifetime
  rw [hn]
  rfl

section
variable {σ α : Type} {scope : List String → σ} {module : List String} {child : String}
  {values : String → α}

/-- `Outer<'a> { inner: self::Inner<'a, …> }`. -/
def outer : DeclaredTypes where
  generics := .lifetimeParam "a" .noBounds .noGenerics
  types := [innerType]

/-- The stem is bound in the type, so the first number behind it is taken. -/
example : outer.freshGeneratedLifetime "b" = some "b_1" := by decide

end

end DeclaredTypes

end ZeroSchema
