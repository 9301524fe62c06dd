import ZeroSchema.Library.Scope

/-! Types, paths, bounds and generics as they are spelled, and the traversals that rewrite their
lifetimes and the roots of their paths under the binders that stand around them. -/
namespace ZeroSchema
open Scope

/-- Where a path starts. `self` stands first only, and `super` first or after one of them. -/
inductive PathRoot
  | global
  | name
  | crate
  | self (supers : ℕ)
  | super (supers : ℕ)
deriving DecidableEq

inductive TreeSort
  | type
  | expr
  | path
  | segments
  | args
  | bounds
  | generics

/-- Spelled syntax with lifetimes in `L` and roots of paths in `R`. The lifetimes of a binder are
the names that its `for` binds; without one it binds none. -/
inductive Tree (L R : Type) : TreeSort → Type
  | path (p : Tree L R .path) : Tree L R .type
  | qualified (qself : Tree L R .type) (p : Tree L R .path) : Tree L R .type
  | reference (lifetime : Option L) (mutable : Bool) (elem : Tree L R .type) : Tree L R .type
  | array (elem : Tree L R .type) (len : Tree L R .expr) : Tree L R .type
  | slice (elem : Tree L R .type) : Tree L R .type
  | pointer (mutable : Bool) (elem : Tree L R .type) : Tree L R .type
  | tuple (elems : Tree L R .args) : Tree L R .type
  | bareFn (lifetimes : List String) (signature : Tree L R .args) : Tree L R .type
  | traitObject (bounds : Tree L R .bounds) : Tree L R .type
  | literal (text : String) : Tree L R .expr
  | constPath (p : Tree L R .path) : Tree L R .expr
  | rooted (root : R) (segments : Tree L R .segments) : Tree L R .path
  | noSegments : Tree L R .segments
  | segment (ident : String) (arguments : Tree L R .args) (rest : Tree L R .segments) :
    Tree L R .segments
  | noArgs : Tree L R .args
  | lifetimeArg (lifetime : L) (rest : Tree L R .args) : Tree L R .args
  | typeArg (ty : Tree L R .type) (rest : Tree L R .args) : Tree L R .args
  | constArg (value : Tree L R .expr) (rest : Tree L R .args) : Tree L R .args
  | assocType (ident : String) (ty : Tree L R .type) (rest : Tree L R .args) : Tree L R .args
  | constraint (ident : String) (bounds : Tree L R .bounds) (rest : Tree L R .args) : Tree L R .args
  | output (ty : Tree L R .type) (rest : Tree L R .args) : Tree L R .args
  | noBounds : Tree L R .bounds
  | traitBound (lifetimes : List String) (p : Tree L R .path) (rest : Tree L R .bounds) :
    Tree L R .bounds
  | outlives (lifetime : L) (rest : Tree L R .bounds) : Tree L R .bounds
  | noGenerics : Tree L R .generics
  | lifetimeParam (lifetime : L) (bounds : Tree L R .bounds) (rest : Tree L R .generics) :
    Tree L R .generics
  | typeParam (ident : String) (bounds : Tree L R .bounds) (rest : Tree L R .generics) :
    Tree L R .generics
  | constParam (ident : String) (ty : Tree L R .type) (rest : Tree L R .generics) :
    Tree L R .generics
  | typePredicate (lifetimes : List String) (ty : Tree L R .type) (bounds : Tree L R .bounds)
    (rest : Tree L R .generics) : Tree L R .generics
  | lifetimePredicate (lifetime : L) (bounds : Tree L R .bounds) (rest : Tree L R .generics) :
    Tree L R .generics

abbrev RustType : Type := Tree String PathRoot .type
abbrev RustPath : Type := Tree String PathRoot .path
abbrev Generics : Type := Tree String PathRoot .generics

namespace Tree
variable {L R L' R' L'' R'' : Type} {k : TreeSort}

/-- A traversal: what happens to a lifetime depends on the binders around it. Behind a binder, the
frames are those that `push` makes of its names and of the frames before it. -/
def visit (push : List String → Frames → Frames) (life : Frames → L → L') (root : R → R') :
    {k : TreeSort} → Frames → Tree L R k → Tree L' R' k
  | _, frames, path p => path (visit push life root frames p)
  | _, frames, qualified qself p =>
    qualified (visit push life root frames qself) (visit push life root frames p)
  | _, frames, reference lifetime mutable elem =>
    reference (lifetime.map (life frames)) mutable (visit push life root frames elem)
  | _, frames, array elem len =>
    array (visit push life root frames elem) (visit push life root frames len)
  | _, frames, slice elem => slice (visit push life root frames elem)
  | _, frames, pointer mutable elem => pointer mutable (visit push life root frames elem)
  | _, frames, tuple elems => tuple (visit push life root frames elems)
  | _, frames, bareFn lifetimes signature =>
    bareFn lifetimes (visit push life root (push lifetimes frames) signature)
  | _, frames, traitObject bounds => traitObject (visit push life root frames bounds)
  | _, _, literal text => literal text
  | _, frames, constPath p => constPath (visit push life root frames p)
  | _, frames, rooted r segments => rooted (root r) (visit push life root frames segments)
  | _, _, noSegments => noSegments
  | _, frames, segment ident arguments rest =>
    segment ident (visit push life root frames arguments) (visit push life root frames rest)
  | _, _, noArgs => noArgs
  | _, frames, lifetimeArg lifetime rest =>
    lifetimeArg (life frames lifetime) (visit push life root frames rest)
  | _, frames, typeArg ty rest =>
    typeArg (visit push life root frames ty) (visit push life root frames rest)
  | _, frames, constArg value rest =>
    constArg (visit push life root frames value) (visit push life root frames rest)
  | _, frames, assocType ident ty rest =>
    assocType ident (visit push life root frames ty) (visit push life root frames rest)
  | _, frames, constraint ident bounds rest =>
    constraint ident (visit push life root frames bounds) (visit push life root frames rest)
  | _, frames, output ty rest =>
    output (visit push life root frames ty) (visit push life root frames rest)
  | _, _, noBounds => noBounds
  | _, frames, traitBound lifetimes p rest =>
    traitBound lifetimes (visit push life root (push lifetimes frames) p)
      (visit push life root frames rest)
  | _, frames, outlives lifetime rest =>
    outlives (life frames lifetime) (visit push life root frames rest)
  | _, _, noGenerics => noGenerics
  | _, frames, lifetimeParam lifetime bounds rest =>
    lifetimeParam (life frames lifetime) (visit push life root frames bounds)
      (visit push life root frames rest)
  | _, frames, typeParam ident bounds rest =>
    typeParam ident (visit push life root frames bounds) (visit push life root frames rest)
  | _, frames, constParam ident ty rest =>
    constParam ident (visit push life root frames ty) (visit push life root frames rest)
  | _, frames, typePredicate lifetimes ty bounds rest =>
    typePredicate lifetimes (visit push life root (push lifetimes frames) ty)
      (visit push life root (push lifetimes frames) bounds) (visit push life root frames rest)
  | _, frames, lifetimePredicate lifetime bounds rest =>
    lifetimePredicate (life frames lifetime) (visit push life root frames bounds)
      (visit push life root frames rest)

/-- Every binder satisfies a condition on its names. -/
def Binders (P : List String → Prop) : {k : TreeSort} → Tree L R k → Prop
  | _, path p | _, constPath p => Binders P p
  | _, qualified qself p => Binders P qself ∧ Binders P p
  | _, reference _ _ elem | _, slice elem | _, pointer _ elem => Binders P elem
  | _, array elem len => Binders P elem ∧ Binders P len
  | _, tuple elems => Binders P elems
  | _, bareFn lifetimes signature => P lifetimes ∧ Binders P signature
  | _, traitObject bounds => Binders P bounds
  | _, literal _ | _, noSegments | _, noArgs | _, noBounds | _, noGenerics => True
  | _, rooted _ segments => Binders P segments
  | _, segment _ arguments rest => Binders P arguments ∧ Binders P rest
  | _, lifetimeArg _ rest => Binders P rest
  | _, typeArg ty rest | _, assocType _ ty rest | _, output ty rest => Binders P ty ∧ Binders P rest
  | _, constArg value rest => Binders P value ∧ Binders P rest
  | _, constraint _ bounds rest => Binders P bounds ∧ Binders P rest
  | _, traitBound lifetimes p rest => P lifetimes ∧ Binders P p ∧ Binders P rest
  | _, outlives _ rest => Binders P rest
  | _, lifetimeParam _ bounds rest | _, typeParam _ bounds rest
  | _, lifetimePredicate _ bounds rest => Binders P bounds ∧ Binders P rest
  | _, constParam _ ty rest => Binders P ty ∧ Binders P rest
  | _, typePredicate lifetimes ty bounds rest =>
    P lifetimes ∧ Binders P ty ∧ Binders P bounds ∧ Binders P rest

/-- The lifetimes that are spelled anywhere, also by a binder. -/
def names : {k : TreeSort} → Tree String R k → List String
  | _, path p | _, constPath p => names p
  | _, qualified qself p => names qself ++ names p
  | _, reference lifetime _ elem => lifetime.toList ++ names elem
  | _, slice elem | _, pointer _ elem => names elem
  | _, array elem len => names elem ++ names len
  | _, tuple elems => names elems
  | _, bareFn lifetimes signature => lifetimes ++ names signature
  | _, traitObject bounds => names bounds
  | _, literal _ | _, noSegments | _, noArgs | _, noBounds | _, noGenerics => []
  | _, rooted _ segments => names segments
  | _, segment _ arguments rest => names arguments ++ names rest
  | _, lifetimeArg lifetime rest => lifetime :: names rest
  | _, typeArg ty rest | _, assocType _ ty rest | _, output ty rest => names ty ++ names rest
  | _, constArg value rest => names value ++ names rest
  | _, constraint _ bounds rest => names bounds ++ names rest
  | _, traitBound lifetimes p rest => lifetimes ++ (names p ++ names rest)
  | _, outlives lifetime rest => lifetime :: names rest
  | _, lifetimeParam lifetime bounds rest => lifetime :: (names bounds ++ names rest)
  | _, typeParam _ bounds rest => names bounds ++ names rest
  | _, lifetimePredicate lifetime bounds rest => lifetime :: (names bounds ++ names rest)
  | _, constParam _ ty rest => names ty ++ names rest
  | _, typePredicate lifetimes ty bounds rest =>
    lifetimes ++ (names ty ++ (names bounds ++ names rest))

/-- A traversal leaves the binders as they are. -/
theorem binders_visit {push : List String → Frames → Frames} {life : Frames → L → L'}
    {root : R → R'} {P : List String → Prop} {frames : Frames} {t : Tree L R k} :
    (t.visit push life root frames).Binders P ↔ t.Binders P := by
  induction t generalizing frames with
  | _ => simp [visit, Binders, *]

/-- What is spelled nowhere is bound nowhere. -/
theorem binders_of_not_mem {name : String} {t : Tree String R k} (h : name ∉ t.names) :
    t.Binders fun lifetimes => name ∉ lifetimes := by
  induction t with
  | literal | noSegments | noArgs | noBounds | noGenerics => trivial
  | path _ ih | constPath _ ih | slice _ ih | pointer _ _ ih | tuple _ ih | traitObject _ ih
  | rooted _ _ ih => exact ih h
  | reference _ _ _ ih =>
    simp only [names, List.mem_append, not_or] at h
    exact ih h.2
  | lifetimeArg _ _ ih | outlives _ _ ih =>
    simp only [names, List.mem_cons, not_or] at h
    exact ih h.2
  | bareFn _ _ ih =>
    simp only [names, List.mem_append, not_or] at h
    exact ⟨h.1, ih h.2⟩
  | traitBound _ _ _ ihp ihr =>
    simp only [names, List.mem_append, not_or] at h
    exact ⟨h.1, ihp h.2.1, ihr h.2.2⟩
  | typePredicate _ _ _ _ iht ihb ihr =>
    simp only [names, List.mem_append, not_or] at h
    exact ⟨h.1, iht h.2.1, ihb h.2.2.1, ihr h.2.2.2⟩
  | lifetimeParam _ _ _ iha ihb | lifetimePredicate _ _ _ iha ihb =>
    simp only [names, List.mem_cons, List.mem_append, not_or] at h
    exact ⟨iha h.2.1, ihb h.2.2⟩
  | qualified _ _ iha ihb | array _ _ iha ihb | segment _ _ _ iha ihb | typeArg _ _ iha ihb
  | constArg _ _ iha ihb | assocType _ _ _ iha ihb | constraint _ _ _ iha ihb | output _ _ iha ihb
  | typeParam _ _ _ iha ihb | constParam _ _ _ iha ihb =>
    simp only [names, List.mem_append, not_or] at h
    exact ⟨iha h.1, ihb h.2⟩

/-- Traversals one after the other are one traversal. -/
theorem visit_visit (push : List String → Frames → Frames) (life : Frames → L → L')
    (life' : Frames → L' → L'') (root : R → R') (root' : R' → R'') (frames : Frames)
    (t : Tree L R k) :
    visit push life' root' frames (visit push life root frames t) =
      visit push (fun frames l => life' frames (life frames l)) (root' ∘ root) frames t := by
  induction t generalizing frames with
  | reference lifetime mutable elem ih => simp [visit, ih, Function.comp_def]
  | _ => simp [visit, *]

/-- Traversals agree where they do the same under every binder. -/
theorem visit_congr {push push' : List String → Frames → Frames} {life life' : Frames → L → L'}
    {root root' : R → R'} {P : List String → Prop} {Q : Frames → Frames → Prop}
    (hpush : ∀ names frames frames', P names → Q frames frames' →
      Q (push names frames) (push' names frames'))
    (hlife : ∀ frames frames' l, Q frames frames' → life frames l = life' frames' l)
    (hroot : ∀ r, root r = root' r) {frames frames' : Frames} (t : Tree L R k) (ht : t.Binders P)
    (hq : Q frames frames') :
    visit push life root frames t = visit push' life' root' frames' t := by
  induction t generalizing frames frames' with
  | path p ih | constPath p ih => rw [visit, visit, ih ht hq]
  | slice elem ih | pointer _ elem ih | tuple elem ih | traitObject elem ih =>
    rw [visit, visit, ih ht hq]
  | reference lifetime mutable elem ih =>
    have hlifetime : lifetime.map (life frames) = lifetime.map (life' frames') :=
      congrArg (Option.map · lifetime) (funext fun l => hlife frames frames' l hq)
    rw [visit, visit, ih ht hq, hlifetime]
  | literal | noSegments | noArgs | noBounds | noGenerics => rfl
  | rooted r segments ih => rw [visit, visit, ih ht hq, hroot]
  | lifetimeArg l rest ih | outlives l rest ih => rw [visit, visit, ih ht hq, hlife frames frames' l hq]
  | bareFn lifetimes signature ih => rw [visit, visit, ih ht.2 (hpush _ _ _ ht.1 hq)]
  | traitBound lifetimes p rest ihp ihr =>
    rw [visit, visit, ihp ht.2.1 (hpush _ _ _ ht.1 hq), ihr ht.2.2 hq]
  | lifetimeParam l bounds rest ihb ihr | lifetimePredicate l bounds rest ihb ihr =>
    rw [visit, visit, ihb ht.1 hq, ihr ht.2 hq, hlife frames frames' l hq]
  | typePredicate lifetimes ty bounds rest iht ihb ihr =>
    have hinner := hpush lifetimes frames frames' ht.1 hq
    rw [visit, visit, iht ht.2.1 hinner, ihb ht.2.2.1 hinner, ihr ht.2.2.2 hq]
  | qualified a b iha ihb | array a b iha ihb | segment _ a b iha ihb | typeArg a b iha ihb
  | constArg a b iha ihb | assocType _ a b iha ihb | constraint _ a b iha ihb | output a b iha ihb
  | typeParam _ a b iha ihb | constParam _ a b iha ihb =>
    rw [visit, visit, iha ht.1 hq, ihb ht.2 hq]

end Tree

end ZeroSchema
