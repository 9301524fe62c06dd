import Mathlib.Data.List.Induction
import Mathlib.Data.List.Nodup
import Mathlib.Data.List.Perm.Basic

/-! Readers of keyed items that stand in groups. A group is read up to its first fault, a key is
taken once over all groups, and what a faulty item has changed stays changed. -/
namespace Keyed

/-- How items are read into a state. `mark` is what an item changes before its value is read. -/
structure Reader (ι κ ν σ ε : Type) where
  key : ι → Except ε κ
  taken : κ → σ → Bool
  repeated : κ → ε
  mark : κ → σ → σ
  value : κ → ι → Except ε ν
  set : ν → σ → σ

variable {ι κ ν σ ε : Type}

namespace Reader
variable (r : Reader ι κ ν σ ε)

/-- One item: the state behind it, and its fault. -/
def visit (state : σ) (item : ι) : σ × Option ε :=
  match r.key item with
  | .error e => (state, some e)
  | .ok k =>
    if r.taken k state then (r.mark k state, some (r.repeated k))
    else match r.value k item with
      | .error e => (r.mark k state, some e)
      | .ok v => (r.set v (r.mark k state), none)

/-- The items of a group up to the first fault. -/
def group (state : σ) : List ι → σ × Option ε
  | [] => (state, none)
  | item :: rest =>
    match r.visit state item with
    | (state, some e) => (state, some e)
    | (state, none) => group state rest

/-- Every group, and the faults of all. -/
def groups (state : σ) : List (List ι) → σ × List ε
  | [] => (state, [])
  | g :: rest =>
    let (state, fault) := r.group state g
    let (state, faults) := groups state rest
    (state, fault.toList ++ faults)

def read (start : σ) (items : List (List ι)) : Except (List ε) σ :=
  match r.groups start items with
  | (state, []) => .ok state
  | (_, faults) => .error faults

/-! ### Specification -/

/-- An item has a key and a value. -/
def Reads (item : ι) (entry : κ × ν) : Prop :=
  r.key item = .ok entry.1 ∧ r.value entry.1 item = .ok entry.2

def put (state : σ) (entry : κ × ν) : σ := r.set entry.2 (r.mark entry.1 state)

/-- A value that is put takes its key and no other. -/
structure Lawful : Prop where
  taken_self : ∀ {item entry state}, r.Reads item entry →
    r.taken entry.1 (r.put state entry) = true
  taken_other : ∀ {item entry state k}, r.Reads item entry → k ≠ entry.1 →
    r.taken k (r.put state entry) = r.taken k state

/-- Entries whose keys are free one after the other. -/
def Free : σ → List (κ × ν) → Prop
  | _, [] => True
  | state, entry :: rest => r.taken entry.1 state = false ∧ Free (r.put state entry) rest

variable {r}

theorem visit_eq_none {state next : σ} {item : ι} : r.visit state item = (next, none) ↔
    ∃ entry, r.Reads item entry ∧ r.taken entry.1 state = false ∧ next = r.put state entry := by
  constructor
  · intro h
    unfold visit at h
    split at h
    · cases h
    · next k hkey =>
      split_ifs at h with htaken
      · cases h
      · split at h
        · cases h
        · next v hvalue =>
          have hnext : r.set v (r.mark k state) = next := congrArg Prod.fst h
          exact ⟨(k, v), ⟨hkey, hvalue⟩, Bool.eq_false_iff.mpr htaken, hnext.symm⟩
  · intro ⟨entry, ⟨hkey, hvalue⟩, htaken, hnext⟩
    unfold visit
    rw [hkey]
    show (if r.taken entry.1 state = true then _ else _) = _
    rw [if_neg (Bool.eq_false_iff.mp htaken), hvalue, hnext]
    rfl

/-- A group without a fault is a list of entries with keys that were free. -/
theorem group_eq_none {state next : σ} {items : List ι} : r.group state items = (next, none) ↔
    ∃ entries, List.Forall₂ r.Reads items entries ∧ r.Free state entries ∧
      next = entries.foldl r.put state := by
  induction items generalizing state with
  | nil =>
    rw [group]
    constructor
    · intro h
      exact ⟨[], .nil, trivial, (congrArg Prod.fst h).symm⟩
    · intro ⟨entries, hreads, _, hnext⟩
      cases hreads
      rw [hnext]
      rfl
  | cons item rest ih =>
    have hstep : r.group state (item :: rest) = (next, none) ↔
        ∃ middle, r.visit state item = (middle, none) ∧ r.group middle rest = (next, none) := by
      rw [group]
      constructor
      · intro h
        split at h
        · cases h
        · next middle hvisit => exact ⟨middle, hvisit, h⟩
      · intro ⟨middle, hvisit, hgroup⟩
        rw [hvisit]
        exact hgroup
    rw [hstep]
    constructor
    · intro ⟨middle, hvisit, hgroup⟩
      obtain ⟨entry, hentry, hfree, rfl⟩ := visit_eq_none.mp hvisit
      obtain ⟨entries, hentries, hrest, hnext⟩ := ih.mp hgroup
      exact ⟨entry :: entries, .cons hentry hentries, ⟨hfree, hrest⟩, hnext⟩
    · intro ⟨entries, hreads, hfree, hnext⟩
      cases hreads with
      | cons hentry hentries =>
        exact ⟨_, visit_eq_none.mpr ⟨_, hentry, hfree.1, rfl⟩,
          ih.mpr ⟨_, hentries, hfree.2, hnext⟩⟩

theorem free_append {state : σ} {first second : List (κ × ν)} :
    r.Free state (first ++ second) ↔
      r.Free state first ∧ r.Free (first.foldl r.put state) second := by
  induction first generalizing state with
  | nil => exact (and_iff_right trivial).symm
  | cons entry first ih => simp only [List.cons_append, Free, List.foldl_cons, ih, and_assoc]

/-- It does not matter where the groups end as long as there is no fault. -/
theorem groups_eq_nil {state next : σ} {items : List (List ι)} :
    r.groups state items = (next, []) ↔
      ∃ entries, List.Forall₂ r.Reads items.flatten entries ∧ r.Free state entries ∧
        next = entries.foldl r.put state := by
  induction items generalizing state with
  | nil =>
    rw [groups]
    constructor
    · intro h
      exact ⟨[], .nil, trivial, (congrArg Prod.fst h).symm⟩
    · intro ⟨entries, hreads, _, hnext⟩
      cases hreads
      rw [hnext]
      rfl
  | cons g rest ih =>
    have hstep : r.groups state (g :: rest) = (next, []) ↔
        ∃ middle, r.group state g = (middle, none) ∧ r.groups middle rest = (next, []) := by
      rw [groups]
      cases hgroup : r.group state g with
      | mk middle fault =>
        cases hrest : r.groups middle rest with
        | mk last faults => cases fault <;> simp [hrest]
    rw [hstep]
    constructor
    · intro ⟨middle, hgroup, hgroups⟩
      obtain ⟨entries, hentries, hfree, rfl⟩ := group_eq_none.mp hgroup
      obtain ⟨entries', hentries', hfree', hnext⟩ := ih.mp hgroups
      refine ⟨entries ++ entries', ?_, free_append.mpr ⟨hfree, hfree'⟩, ?_⟩
      · exact List.rel_append hentries hentries'
      · rw [hnext, List.foldl_append]
    · intro ⟨entries, hreads, hfree, hnext⟩
      rw [List.flatten_cons] at hreads
      have hhead := List.forall₂_take g.length hreads
      have htail := List.forall₂_drop g.length hreads
      rw [List.take_left] at hhead
      rw [List.drop_left] at htail
      rw [← List.take_append_drop g.length entries] at hfree hnext
      rw [List.foldl_append] at hnext
      obtain ⟨hfirst, hsecond⟩ := free_append.mp hfree
      exact ⟨_, group_eq_none.mpr ⟨_, hhead, hfirst, rfl⟩, ih.mpr ⟨_, htail, hsecond, hnext⟩⟩

/-- Keys are free one after the other when they are free at the start and do not repeat. -/
theorem free_iff (hlaw : r.Lawful) {state : σ} {items : List ι} {entries : List (κ × ν)}
    (hreads : List.Forall₂ r.Reads items entries) : r.Free state entries ↔
      (entries.map Prod.fst).Nodup ∧ ∀ entry ∈ entries, r.taken entry.1 state = false := by
  induction hreads generalizing state with
  | nil => simp [Free]
  | @cons item entry items entries hentry hrest ih =>
    have hput (other : κ × ν) (hne : other.1 ≠ entry.1) :
        r.taken other.1 (r.put state entry) = r.taken other.1 state := hlaw.taken_other hentry hne
    have hself : r.taken entry.1 (r.put state entry) = true := hlaw.taken_self hentry
    have hmem : entry.1 ∈ entries.map Prod.fst ↔ ∃ other ∈ entries, other.1 = entry.1 :=
      List.mem_map
    rw [Free, ih, List.map_cons, List.nodup_cons, List.forall_mem_cons, hmem]
    constructor
    · intro ⟨hfree, hnodup, hall⟩
      have hdistinct : ∀ other ∈ entries, other.1 ≠ entry.1 := by
        intro other hother heq
        have hfalse := hall other hother
        rw [heq, hself] at hfalse
        cases hfalse
      refine ⟨⟨?_, hnodup⟩, hfree, ?_⟩
      · intro ⟨other, hother, heq⟩
        exact hdistinct other hother heq
      · intro other hother
        rw [← hput other (hdistinct other hother)]
        exact hall other hother
    · intro ⟨⟨hnot, hnodup⟩, hfree, hall⟩
      refine ⟨hfree, hnodup, ?_⟩
      intro other hother
      have hne : other.1 ≠ entry.1 := fun heq => hnot ⟨other, hother, heq⟩
      rw [hput other hne]
      exact hall other hother

/-- What is read is every entry, when every item reads and no key repeats. -/
theorem read_eq_ok (hlaw : r.Lawful) {start state : σ} (hstart : ∀ k, r.taken k start = false)
    {items : List (List ι)} : r.read start items = .ok state ↔
      ∃ entries, List.Forall₂ r.Reads items.flatten entries ∧ (entries.map Prod.fst).Nodup ∧
        state = entries.foldl r.put start := by
  have hgroups : r.read start items = .ok state ↔ r.groups start items = (state, []) := by
    unfold read
    cases r.groups start items with
    | mk last faults => cases faults <;> simp
  rw [hgroups, groups_eq_nil]
  constructor
  · intro ⟨entries, hreads, hfree, hstate⟩
    exact ⟨entries, hreads, ((free_iff hlaw hreads).mp hfree).1, hstate⟩
  · intro ⟨entries, hreads, hnodup, hstate⟩
    exact ⟨entries, hreads, (free_iff hlaw hreads).mpr ⟨hnodup, fun _ _ => hstart _⟩, hstate⟩

/-- Where a value tells its key, the entries are the values with their keys. -/
theorem entries_of_values {key : ν → κ} {Spelled : ι → ν → Prop}
    (hreads : ∀ item entry, r.Reads item entry ↔ entry.1 = key entry.2 ∧ Spelled item entry.2)
    {items : List ι} {entries : List (κ × ν)} (h : List.Forall₂ r.Reads items entries) :
    List.Forall₂ Spelled items (entries.map Prod.snd) ∧
      (entries.map Prod.snd).map (fun v => (key v, v)) = entries := by
  induction h with
  | nil => exact ⟨.nil, rfl⟩
  | @cons item entry items entries hentry hrest ih =>
    obtain ⟨hkey, hspelled⟩ := (hreads item entry).mp hentry
    have hpair : (key entry.2, entry.2) = entry := by rw [← hkey]
    refine ⟨.cons hspelled ih.1, ?_⟩
    rw [List.map_cons, List.map_cons, hpair, ih.2]

theorem read_values (hlaw : r.Lawful) {start state : σ} (hstart : ∀ k, r.taken k start = false)
    {key : ν → κ} {Spelled : ι → ν → Prop}
    (hreads : ∀ item entry, r.Reads item entry ↔ entry.1 = key entry.2 ∧ Spelled item entry.2)
    {items : List (List ι)} : r.read start items = .ok state ↔
      ∃ values, List.Forall₂ Spelled items.flatten values ∧ (values.map key).Nodup ∧
        state = values.foldl (fun state v => r.put state (key v, v)) start := by
  have hkeys (values : List ν) :
      (values.map fun v => (key v, v)).map Prod.fst = values.map key := by
    rw [List.map_map]
    rfl
  rw [read_eq_ok hlaw hstart]
  constructor
  · intro ⟨entries, hentries, hnodup, hstate⟩
    obtain ⟨hspelled, hpairs⟩ := entries_of_values hreads hentries
    refine ⟨entries.map Prod.snd, hspelled, ?_, ?_⟩
    · rw [← hkeys, hpairs]
      exact hnodup
    · rw [hstate, ← hpairs, List.foldl_map, hpairs]
  · intro ⟨values, hspelled, hnodup, hstate⟩
    refine ⟨values.map fun v => (key v, v), ?_, (hkeys values).symm ▸ hnodup, ?_⟩
    · rw [List.forall₂_map_right_iff]
      exact hspelled.imp fun item v hv => (hreads item (key v, v)).mpr ⟨rfl, hv⟩
    · rw [List.foldl_map]
      exact hstate

end Reader

/-- Values with distinct keys may be put in any order, where values of distinct keys commute. -/
theorem foldl_perm {key : ν → κ} {put : σ → ν → σ}
    (hcomm : ∀ state v w, key v ≠ key w → put (put state v) w = put (put state w) v)
    {values values' : List ν} (hperm : values.Perm values') (hnodup : (values.map key).Nodup)
    (start : σ) : values.foldl put start = values'.foldl put start := by
  refine hperm.foldl_eq' ?_ start
  intro v hv w hw state
  by_cases heq : v = w
  · rw [heq]
  · have hkey : key v ≠ key w := fun hk => heq (List.inj_on_of_nodup_map hnodup hv hw hk)
    exact hcomm state v w hkey

/-- What a state shows behind some values it has shown before, or one of the values is it. -/
theorem shows_foldl {τ : Type} {put : σ → ν → σ} {shows : σ → Option τ} {value : τ → ν}
    (hput : ∀ state v t, shows (put state v) = some t → shows state = some t ∨ v = value t)
    {values : List ν} {start : σ} {t : τ} (h : shows (values.foldl put start) = some t) :
    shows start = some t ∨ value t ∈ values := by
  induction values generalizing start with
  | nil => exact Or.inl h
  | cons v values ih =>
    rcases ih h with hstart | hmem
    · rcases hput start v t hstart with hbefore | heq
      · exact Or.inl hbefore
      · exact Or.inr (heq ▸ List.mem_cons_self)
    · exact Or.inr (List.mem_cons_of_mem v hmem)

end Keyed
