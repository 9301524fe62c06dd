import ZeroSchema.Library.Schedule
import ZeroSchema.Mutation.Frame

/-! Programs that work at different places of one root. The order in which their steps are taken
shows neither in their results, nor in what their handles see, nor in the bytes. -/
namespace ZeroSchema
open Storage Control Input

section
variable [Target]

namespace Input
variable {W F G : Layout}

/-- The whole that a place of `input` makes with another part. -/
def lift (input : Input W) (p : Place W F) (x : Input F) : Input W := input.put p.toCell x.bytes

variable {input : Input W} {p : Place W F} {q : Place W G} {x y : Input F}

theorem lift_child : input.lift p (input.child p) = input := Input.ext rfl (Cell.put_get _ _)

theorem lift_lift : (input.lift p x).lift p y = input.lift p y :=
  Input.ext rfl (Cell.put_put _ _ _ _)

theorem lift_comm (h : Disjoint p.region q.region) (z : Input G) :
    (input.lift p x).lift q z = (input.lift q z).lift p x :=
  Input.ext rfl (Cell.put_comm h _ _ _)

theorem child_lift (h : x.address = input.address + p.offset) : (input.lift p x).child p = x :=
  Input.ext h.symm (Cell.get_put _ _ _)

theorem child_lift_ne (h : Disjoint q.region p.region) : (input.lift p x).child q = input.child q :=
  Input.ext rfl (Cell.get_put_of_disjoint h input.bytes x.bytes)

end Input

namespace Category

/-- Positions that part at a field, at an element or at a variant. -/
inductive Position.Apart : {c d e : Category} → Position c d → Position c e → Prop
  | fields {ir : StructIr} {fields : Fin ir.arity → Category} {d e} {i j : Fin ir.arity} {hi hj}
    {p : Position (fields i) d} {q : Position (fields j) e}
    (h : i ≠ j) : Apart (.field i hi p) (.field j hj q)
  | elements {element n d e} {i j : ℕ} {p : Position element d} {q : Position element e}
    (h : i ≠ j) : Apart (.element (n := n) i p) (.element j q)
  | variants {ir : TaggedIr} {payload : Fin ir.arity → Category} {d e} {i j : Fin ir.arity}
    {p : Position (payload i) d} {q : Position (payload j) e}
    (h : i ≠ j) : Apart (.variant i p) (.variant j q)
  | field {ir : StructIr} {fields : Fin ir.arity → Category} {d e} {i : Fin ir.arity} {hi}
    {p : Position (fields i) d} {q : Position (fields i) e}
    (h : Apart p q) : Apart (.field i hi p) (.field i hi q)
  | element {element n d e} {i : ℕ} {p : Position element d} {q : Position element e}
    (h : Apart p q) : Apart (.element (n := n) i p) (.element i q)
  | present {align inner d e} {p : Position inner d} {q : Position inner e} (h : Apart p q) :
    Apart (c := optional align inner) (.present p) (.present q)
  | variant {ir : TaggedIr} {payload : Fin ir.arity → Category} {d e} {i : Fin ir.arity}
    {p : Position (payload i) d} {q : Position (payload i) e}
    (h : Apart p q) : Apart (.variant i p) (.variant i q)

omit [Target] in
theorem Position.Apart.symm {c d e : Category} {p : Position c d} {q : Position c e}
    (h : p.Apart q) : q.Apart p := by
  induction h with
  | fields h => exact .fields h.symm
  | elements h => exact .elements h.symm
  | variants h => exact .variants h.symm
  | field _ ih => exact .field ih
  | element _ ih => exact .element ih
  | present _ ih => exact .present ih
  | variant _ ih => exact .variant ih

/-- What a party sees of a program: the results of its calls, and its handle afterwards. -/
abbrev Seen (d : Category) : Type := List (Except SchemaError Unit) × Option (Option (Lent d))

/-- A program as an act at a position. -/
def Position.act {c d : Category} (p : Position c d) (ctx : Context) (tag : ℕ) (m : Mutation d) :
    Act (Input c.wire) (Seen d) := fun input =>
  ((p.wrap m).run ctx tag input).map fun trace =>
    ((trace.map Prod.fst, p.lend ctx tag (Trace.final input trace)), Trace.final input trace)

/-- Storage that was proved under `tag`, at the address it has. -/
structure Held (c : Category) (address tag : ℕ) (input : Input c.wire) : Prop where
  address : input.address = address
  valid : c.Valid tag input.bytes

section Session
variable {W F : Layout} {input : Input W} {p : Place W F}
  {prove : Input F → Outcome SchemaError Unit} {x : Input F}

theorem provedChild_lift (hx : x.address = input.address + p.offset) (hprove : prove x = .ok ()) :
    provedChild (input.lift p x) p.offset prove = some x := by
  have hchild := Input.child_lift hx
  rw [← hchild] at hprove
  rw [provedChild_place (input.lift p x) p hprove, hchild]

theorem session_lift {run : Input F → Option (Trace (Input F) (Except SchemaError Unit))}
    (hx : x.address = input.address + p.offset) (hprove : prove x = .ok ()) :
    session (input.lift p x) p.offset prove run = (run x).map (Trace.within (input.lift p)) := by
  have hchild := Input.child_lift hx
  have hlift : (fun child : Input F => (input.lift p x).put p.toCell child.bytes) =
      input.lift p := funext fun _ => Input.lift_lift
  rw [← hchild] at hprove
  rw [session_place (input.lift p x) p hprove, hchild, hlift]

theorem session_address {offset : ℕ}
    {run : Input F → Option (Trace (Input F) (Except SchemaError Unit))}
    {trace : Trace (Input W) (Except SchemaError Unit)}
    (h : session input offset prove run = some trace) : ∀ a ∈ trace, a.2.address = input.address := by
  obtain ⟨_, -, h⟩ := Option.bind_eq_some_iff.mp h
  obtain ⟨inner, -, h⟩ := Option.bind_eq_some_iff.mp h
  obtain rfl := Option.some.inj h
  intro a ha
  obtain ⟨b, -, rfl⟩ := List.mem_map.mp ha
  show (input.releaseBytes offset b.2.bytes).address = input.address
  unfold Input.releaseBytes
  split_ifs <;> rfl

end Session

/-- No program moves the storage. -/
theorem Mutation.run_address {c : Category} (m : Mutation c) (h : c.Accepted) {ctx : Context}
    {tag : ℕ} {input : Input c.wire} {trace : Trace (Input c.wire) (Except SchemaError Unit)}
    (hrun : m.run ctx tag input = some trace) : ∀ a ∈ trace, a.2.address = input.address := by
  induction m generalizing ctx tag with
  | call op =>
    obtain ⟨⟨result, out⟩, hcall, hrun⟩ := Option.bind_eq_some_iff.mp hrun
    obtain rfl := Option.some.inj hrun
    have hchanges := op.perform_changes h hcall
    rw [changes_iff] at hchanges
    simpa using hchanges.1
  | skip =>
    obtain rfl := Option.some.inj hrun
    simp
  | @seq c first rest ihf ihr =>
    obtain ⟨done, hdone, hrun⟩ := Option.bind_eq_some_iff.mp hrun
    obtain ⟨more, hmore, hrun⟩ := Option.bind_eq_some_iff.mp hrun
    obtain rfl := Option.some.inj hrun
    have hfirst := ihf h hdone
    have hfinal : (Trace.final input done).address = input.address :=
      Trace.final_of_forall (P := fun s : Input c.wire => s.address = input.address) rfl hfirst
    intro a ha
    rcases List.mem_append.mp ha with ha | ha
    · exact hfirst a ha
    · exact (ihr h hmore a ha).trans hfinal
  | field i hi m ih =>
    obtain ⟨_, -, hrun⟩ := Option.bind_eq_some_iff.mp hrun
    exact session_address hrun
  | element index m ih =>
    rw [run] at hrun
    split_ifs at hrun
    · obtain ⟨_, -, hrun⟩ := Option.bind_eq_some_iff.mp hrun
      exact session_address hrun
    · obtain rfl := Option.some.inj hrun
      simp
  | present m ih =>
    rw [run] at hrun
    split_ifs at hrun
    · obtain rfl := Option.some.inj hrun
      simp
    · exact session_address hrun
  | variant k m ih =>
    rw [run] at hrun
    split_ifs at hrun
    · exact session_address hrun
    · obtain rfl := Option.some.inj hrun
      simp

theorem Mutation.run_held {c : Category} (m : Mutation c) (h : c.Accepted) (hd : c.DistinctTags)
    (ctx : Context) {address tag : ℕ} (hfree : c.payloadEnum = none → tag = 0)
    {input : Input c.wire} (hinput : c.Held address tag input) :
    ∃ trace, m.run ctx tag input = some trace ∧ c.Held address tag (Trace.final input trace) := by
  obtain ⟨trace, hrun, hall⟩ := m.run_valid h hd ctx hfree hinput.valid
  have haddress := m.run_address h hrun
  refine ⟨trace, hrun, Trace.final_of_forall hinput fun a ha => ?_⟩
  exact ⟨(haddress a ha).trans hinput.address, hall a ha⟩

theorem Position.act_held {c d : Category} (p : Position c d) (m : Mutation d) (h : c.Accepted)
    (hd : c.DistinctTags) (ctx : Context) {address tag : ℕ}
    (hfree : c.payloadEnum = none → tag = 0) {input : Input c.wire}
    (hinput : c.Held address tag input) :
    ∃ a out, p.act ctx tag m input = some (a, out) ∧ c.Held address tag out := by
  obtain ⟨trace, hrun, hfinal⟩ := (p.wrap m).run_held h hd ctx hfree hinput
  refine ⟨(trace.map Prod.fst, p.lend ctx tag (Trace.final input trace)),
    Trace.final input trace, ?_, hfinal⟩
  unfold act
  rw [hrun]
  rfl

theorem Position.held_of_act {c d : Category} (p : Position c d) {m : Mutation d} (h : c.Accepted)
    (hd : c.DistinctTags) {ctx : Context} {address tag : ℕ}
    (hfree : c.payloadEnum = none → tag = 0) {input out : Input c.wire} {a : Seen d}
    (hinput : c.Held address tag input) (hact : p.act ctx tag m input = some (a, out)) :
    c.Held address tag out := by
  obtain ⟨a', out', hact', hout⟩ := p.act_held m h hd ctx hfree hinput
  obtain ⟨rfl, rfl⟩ : a = a' ∧ out = out' := by simpa using hact.symm.trans hact'
  exact hout

/-- The first step of a position: work there is work on a part of the storage, which stays where
it is whatever the part becomes. -/
structure Position.Enters {c b d : Category} (p : Position c d) (rest : Position b d)
    (place : Place c.wire b.wire) (input : Input c.wire) (ctx : Context) (tag : ℕ) (ctx' : Context)
    (tag' : ℕ) : Prop where
  run : ∀ x, b.Held (input.address + place.offset) tag' x → ∀ m,
    (p.wrap m).run ctx tag (input.lift place x) =
      ((rest.wrap m).run ctx' tag' x).map (Trace.within (input.lift place))
  lend : ∀ x, b.Held (input.address + place.offset) tag' x →
    p.lend ctx tag (input.lift place x) = rest.lend ctx' tag' x

section Enters
variable {c b d e : Category} {p : Position c d} {rest : Position b d} {q : Position c e}
  {rest' : Position b e} {place : Place c.wire b.wire} {input : Input c.wire} {ctx ctx' : Context}
  {tag tag' : ℕ}

theorem Position.Enters.act (h : p.Enters rest place input ctx tag ctx' tag') (hacc : b.Accepted)
    (hd : b.DistinctTags) (hfree : b.payloadEnum = none → tag' = 0) (m : Mutation d)
    (x : Input b.wire) (hx : b.Held (input.address + place.offset) tag' x) :
    p.act ctx tag m (input.lift place x) =
      (rest.act ctx' tag' m x).map (Prod.map id (input.lift place)) := by
  obtain ⟨trace, hrun, hfinal⟩ := (rest.wrap m).run_held hacc hd ctx' hfree hx
  have hlend := h.lend _ hfinal
  have hresults : (trace.within (input.lift place)).map Prod.fst = trace.map Prod.fst := by
    simp [Trace.within]
  unfold Position.act
  rw [h.run x hx m, hrun]
  simp only [Option.map_some, Trace.final_within, hlend, hresults]
  rfl

/-- Positions behind one first step. -/
theorem Position.Enters.commute (hp : p.Enters rest place input ctx tag ctx' tag')
    (hq : q.Enters rest' place input ctx tag ctx' tag') (hacc : b.Accepted) (hd : b.DistinctTags)
    (hfree : b.payloadEnum = none → tag' = 0) (m : Mutation d) (n : Mutation e)
    (hvalid : b.Valid tag' (place.get input.bytes))
    (h : (rest.act ctx' tag' m).Commute (rest'.act ctx' tag' n) (input.child place)) :
    (p.act ctx tag m).Commute (q.act ctx tag n) input := by
  have hchild : b.Held (input.address + place.offset) tag' (input.child place) := ⟨rfl, hvalid⟩
  have hlift : (p.act ctx tag m).Commute (q.act ctx tag n) (input.lift place (input.child place)) :=
    Act.Commute.lift (fun y a z => rest.held_of_act hacc hd hfree)
      (fun y a z => rest'.held_of_act hacc hd hfree)
      (hp.act hacc hd hfree m) (hq.act hacc hd hfree n) hchild h
  rwa [Input.lift_child] at hlift

/-- Positions whose first steps lead to different parts. -/
theorem Position.Enters.commute_apart {b' : Category} {rest' : Position b' e}
    {place' : Place c.wire b'.wire} {ctx'' : Context} {tag'' : ℕ}
    (hplace : Disjoint place.region place'.region)
    (hp : ∀ y, p.Enters rest place (input.lift place' y) ctx tag ctx' tag')
    (hq : ∀ x, q.Enters rest' place' (input.lift place x) ctx tag ctx'' tag'')
    (hacc : b.Accepted) (hd : b.DistinctTags) (hfree : b.payloadEnum = none → tag' = 0)
    (hacc' : b'.Accepted) (hd' : b'.DistinctTags) (hfree' : b'.payloadEnum = none → tag'' = 0)
    (m : Mutation d) (n : Mutation e) (hvalid : b.Valid tag' (place.get input.bytes))
    (hvalid' : b'.Valid tag'' (place'.get input.bytes)) :
    (p.act ctx tag m).Commute (q.act ctx tag n) input := by
  have hx : b.Held (input.address + place.offset) tag' (input.child place) := ⟨rfl, hvalid⟩
  have hy : b'.Held (input.address + place'.offset) tag'' (input.child place') := ⟨rfl, hvalid'⟩
  obtain ⟨a, x', hact, hx'⟩ := rest.act_held m hacc hd ctx' hfree hx
  obtain ⟨a', y', hact', hy'⟩ := rest'.act_held n hacc' hd' ctx'' hfree' hy
  let both (x : Input b.wire) (y : Input b'.wire) : Input c.wire := (input.lift place x).lift place' y
  have hboth : (p.act ctx tag m).Commute (q.act ctx tag n)
      (both (input.child place) (input.child place')) := by
    refine Act.Commute.both (R := b'.Held (input.address + place'.offset) tag'')
      (fun x y hx hy => ?_) (fun x y hx hy => (hq x).act hacc' hd' hfree' n y hy) hx hx' hy hy'
      hact hact'
    show p.act ctx tag m ((input.lift place x).lift place' y) =
      (rest.act ctx' tag' m x).map (Prod.map id fun x => (input.lift place x).lift place' y)
    have hcomm : (fun x => (input.lift place x).lift place' y) = (input.lift place' y).lift place :=
      funext fun x => Input.lift_comm hplace y
    rw [hcomm, Input.lift_comm hplace]
    exact (hp y).act hacc hd hfree m x hx
  have hself : both (input.child place) (input.child place') = input := by
    show (input.lift place (input.child place)).lift place' (input.child place') = input
    rw [Input.lift_child, Input.lift_child]
  rwa [hself] at hboth

end Enters

section Fields
variable {ir : StructIr} {fields : Fin ir.arity → Category} {i j : Fin ir.arity} {d e : Category}
  {hi : (fields i).tagEnum = none} {input : Input (struct ir fields).wire} {ctx : Context}
  {tag tag' : ℕ}

theorem Position.enters_field (hlink : ir.Linked fields) (rest : Position (fields i) d)
    (htag : tagAt ir fields input.bytes i = some tag') :
    (Position.field i hi rest).Enters rest (fieldPlace ir fields i) input ctx tag (ir.context i)
      tag' := by
  have hstay (x : Input (fields i).wire) :
      tagAt ir fields (input.lift (fieldPlace ir fields i) x).bytes i = some tag' :=
    (tagAt_put hlink hi i).trans htag
  constructor
  · intro x hx m
    rw [wrap, Mutation.run, siblingTag_proved, hstay]
    exact session_lift hx.address ((prove_eq_ok _ _ _ _).mpr hx.valid)
  · intro x hx
    rw [lend, siblingTag_proved, hstay]
    change (provedChild _ _ _ >>= _) = _
    rw [provedChild_lift hx.address ((prove_eq_ok _ _ _ _).mpr hx.valid)]
    rfl

end Fields

theorem Position.enters_element {element d : Category} {n : ℕ} (index : Fin n)
    (rest : Position element d) (input : Input (array element n).wire) (ctx : Context) (tag : ℕ) :
    (Position.element (n := n) index rest).Enters rest (elementPlace element index) input ctx tag
      (ctx.element n index) 0 := by
  constructor
  · intro x hx m
    rw [wrap, Mutation.run, if_pos index.isLt, checkedElementOffset_eq input index]
    exact session_lift hx.address ((prove_eq_ok _ _ _ _).mpr hx.valid)
  · intro x hx
    rw [lend, if_pos index.isLt, checkedElementOffset_eq input index]
    change (provedChild _ (elementPlace element index).offset _ >>= _) = _
    rw [provedChild_lift hx.address ((prove_eq_ok _ _ _ _).mpr hx.valid)]
    rfl

theorem Position.enters_present {align : Option Alignment} {inner d : Category}
    (hacc : (optional align inner).Accepted) (rest : Position inner d)
    (input : Input (optional align inner).wire) (ctx : Context) (tag : ℕ) :
    Position.Enters (c := optional align inner) (.present rest) rest (presentPlace align inner) input
      ctx tag ctx 0 := by
  have hthere (x : Input inner.wire) (hx : inner.Valid 0 x.bytes) :
      ¬(input.lift (presentPlace align inner) x).isAllZero = true := by
    rw [Input.isAllZero_eq_true]
    apply not_isZero_of_valid hacc
    show inner.Valid 0 ((presentPlace align inner).get ((presentPlace align inner).put _ _))
    rwa [Cell.get_put]
  constructor
  · intro x hx m
    rw [wrap, Mutation.run, if_neg (hthere x hx.valid)]
    exact session_lift hx.address ((prove_eq_ok _ _ _ _).mpr hx.valid)
  · intro x hx
    rw [lend, if_neg (hthere x hx.valid),
      provedChild_lift hx.address ((prove_eq_ok _ _ _ _).mpr hx.valid)]
    rfl

theorem Position.enters_variant {ir : TaggedIr} {payload : Fin ir.arity → Category} {d : Category}
    {k : Fin ir.arity} (rest : Position (payload k) d) (input : Input (tagged ir payload).wire)
    (ctx : Context) {tag : ℕ} (htag : tag = ir.tag k) :
    (Position.variant k rest).Enters rest (payloadPlace ir payload k) input ctx tag .root 0 := by
  have hoffset : (payloadPlace ir payload k).offset = 0 := rfl
  constructor
  · intro x hx m
    rw [wrap, Mutation.run, if_pos htag]
    exact session_lift hx.address ((prove_eq_ok _ _ _ _).mpr hx.valid)
  · intro x hx
    have hchild := provedChild_lift hx.address ((prove_eq_ok _ Context.root _ _).mpr hx.valid)
    rw [hoffset] at hchild
    rw [lend, TaggedMut.accessor, if_pos htag, hchild]
    rfl

section Idle
variable {d : Category} {ctx : Context} {tag : ℕ}

/-- Nothing happens behind an element that is not there. -/
theorem Position.act_past {element : Category} {n index : ℕ} (h : ¬index < n)
    (p : Position element d) (m : Mutation d) (input : Input (array element n).wire) :
    (Position.element (n := n) index p).act ctx tag m input = some (([], some none), input) := by
  unfold act
  rw [wrap, Mutation.run, if_neg h, Option.map_some, lend, if_neg h]
  rfl

/-- Nor behind an absent value. -/
theorem Position.act_absent {align : Option Alignment} {inner : Category}
    {input : Input (optional align inner).wire} (h : input.isAllZero = true)
    (p : Position inner d) (m : Mutation d) :
    (Position.present p).act ctx tag m input = some (([], some none), input) := by
  have hlend : (Position.present p).lend ctx tag input = some none := by
    rw [lend, if_pos h]
  unfold act
  rw [wrap, Mutation.run, if_pos h, Option.map_some]
  exact congrArg (fun o => some (([], o), input)) hlend

/-- Nor behind a variant that is not selected. -/
theorem Position.act_unselected {ir : TaggedIr} {payload : Fin ir.arity → Category}
    {k : Fin ir.arity} (h : ¬tag = ir.tag k) (p : Position (payload k) d) (m : Mutation d)
    (input : Input (tagged ir payload).wire) :
    (Position.variant k p).act ctx tag m input = some (([], some none), input) := by
  unfold act
  rw [wrap, Mutation.run, if_neg h, Option.map_some, lend, TaggedMut.accessor, if_neg h]
  rfl

end Idle

section Commute
variable {d e : Category} (m : Mutation d) (n : Mutation e) {ctx : Context} {tag : ℕ}

theorem Position.commute_fields {ir : StructIr} {fields : Fin ir.arity → Category}
    {i j : Fin ir.arity} {hi : (fields i).tagEnum = none} {hj : (fields j).tagEnum = none}
    (p : Position (fields i) d) (q : Position (fields j) e) (hij : i ≠ j)
    (hacc : (struct ir fields).Accepted) (hd : (struct ir fields).DistinctTags)
    {input : Input (struct ir fields).wire} (hvalid : (struct ir fields).Valid 0 input.bytes) :
    ((Position.field i hi p).act ctx tag m).Commute ((Position.field j hj q).act ctx tag n)
      input := by
  obtain ⟨tag, htag, hfield⟩ := hvalid i
  obtain ⟨tag', htag', hfield'⟩ := hvalid j
  have hstay (y : Input (fields j).wire) :
      tagAt ir fields (input.lift (fieldPlace ir fields j) y).bytes i = some tag :=
    (tagAt_put hacc.2.1 hj i).trans htag
  have hstay' (x : Input (fields i).wire) :
      tagAt ir fields (input.lift (fieldPlace ir fields i) x).bytes j = some tag' :=
    (tagAt_put hacc.2.1 hi j).trans htag'
  exact Position.Enters.commute_apart (fieldPlace_disjoint ir fields hij)
    (fun y => Position.enters_field hacc.2.1 p (hstay y))
    (fun x => Position.enters_field hacc.2.1 q (hstay' x)) (hacc.1 i).1 (hd i)
    (tagAt_eq_zero hacc.2.1 htag) (hacc.1 j).1 (hd j) (tagAt_eq_zero hacc.2.1 htag') m n hfield
    hfield'

theorem Position.commute_elements {element : Category} {length i j : ℕ} (p : Position element d)
    (q : Position element e) (hij : i ≠ j) (hacc : (array element length).Accepted)
    (hd : (array element length).DistinctTags) {input : Input (array element length).wire}
    (hvalid : (array element length).Valid 0 input.bytes) :
    ((Position.element i p).act ctx 0 m).Commute ((Position.element j q).act ctx 0 n) input := by
  have hheld : (array element length).Held input.address 0 input := ⟨rfl, hvalid⟩
  by_cases hlt : i < length
  · by_cases hlt' : j < length
    · have hne : (⟨i, hlt⟩ : Fin length) ≠ ⟨j, hlt'⟩ := fun heq => hij (congrArg Fin.val heq)
      exact Position.Enters.commute_apart (elementPlace_disjoint element hne)
        (fun y => Position.enters_element ⟨i, hlt⟩ p _ ctx 0)
        (fun x => Position.enters_element ⟨j, hlt'⟩ q _ ctx 0) hacc.1 hd (fun _ => rfl) hacc.1 hd
        (fun _ => rfl) m n (hvalid ⟨i, hlt⟩) (hvalid ⟨j, hlt'⟩)
    · obtain ⟨a, out, hact, -⟩ :=
        (Position.element i p).act_held m hacc hd ctx (fun _ => rfl) hheld
      exact (Act.Commute.idle (act_past hlt' q n input) hact (act_past hlt' q n out)).symm
  · obtain ⟨a, out, hact, -⟩ :=
      (Position.element j q).act_held n hacc hd ctx (fun _ => rfl) hheld
    exact Act.Commute.idle (act_past hlt p m input) hact (act_past hlt p m out)

theorem Position.commute_variants {ir : TaggedIr} {payload : Fin ir.arity → Category}
    {i j : Fin ir.arity} (p : Position (payload i) d) (q : Position (payload j) e) (hij : i ≠ j)
    (hacc : (tagged ir payload).Accepted) (hd : (tagged ir payload).DistinctTags)
    (hfree : (tagged ir payload).payloadEnum = none → tag = 0)
    {input : Input (tagged ir payload).wire} (hvalid : (tagged ir payload).Valid tag input.bytes) :
    ((Position.variant i p).act ctx tag m).Commute ((Position.variant j q).act ctx tag n) input := by
  have hheld : (tagged ir payload).Held input.address tag input := ⟨rfl, hvalid⟩
  by_cases htag : tag = ir.tag i
  · have htag' : ¬tag = ir.tag j := by
      intro heq
      have hsame := ir.select_tag hd.1 i
      rw [← htag, heq, ir.select_tag hd.1 j] at hsame
      exact hij (Option.some.inj hsame).symm
    obtain ⟨a, out, hact, -⟩ := (Position.variant i p).act_held m hacc hd ctx hfree hheld
    exact (Act.Commute.idle (act_unselected htag' q n input) hact (act_unselected htag' q n out)).symm
  · obtain ⟨a, out, hact, -⟩ := (Position.variant j q).act_held n hacc hd ctx hfree hheld
    exact Act.Commute.idle (act_unselected htag p m input) hact (act_unselected htag p m out)

/-- Programs at positions that part somewhere commute. -/
theorem Position.Apart.commute {c : Category} {p : Position c d} {q : Position c e} (h : p.Apart q)
    (hacc : c.Accepted) (hd : c.DistinctTags) (hfree : c.payloadEnum = none → tag = 0)
    {input : Input c.wire} (hvalid : c.Valid tag input.bytes) :
    (p.act ctx tag m).Commute (q.act ctx tag n) input := by
  induction h generalizing ctx tag with
  | fields hij =>
    obtain rfl := hfree rfl
    exact Position.commute_fields m n _ _ hij hacc hd hvalid
  | elements hij =>
    obtain rfl := hfree rfl
    exact Position.commute_elements m n _ _ hij hacc hd hvalid
  | variants hij => exact Position.commute_variants m n _ _ hij hacc hd hfree hvalid
  | @field ir fields d e i hi p q h ih =>
    obtain rfl := hfree rfl
    obtain ⟨tag, htag, hfield⟩ := hvalid i
    exact (Position.enters_field hacc.2.1 p htag).commute (Position.enters_field hacc.2.1 q htag)
      (hacc.1 i).1 (hd i) (tagAt_eq_zero hacc.2.1 htag) m n hfield
      (ih m n (hacc.1 i).1 (hd i) (tagAt_eq_zero hacc.2.1 htag) hfield)
  | @element element length d e i p q h ih =>
    obtain rfl := hfree rfl
    by_cases hlt : i < length
    · exact (Position.enters_element ⟨i, hlt⟩ p input ctx 0).commute
        (Position.enters_element ⟨i, hlt⟩ q input ctx 0) hacc.1 hd (fun _ => rfl) m n
        (hvalid ⟨i, hlt⟩) (ih m n hacc.1 hd (fun _ => rfl) (hvalid ⟨i, hlt⟩))
    · exact Act.Commute.idle (act_past hlt p m input) (act_past hlt q n input)
        (act_past hlt p m input)
  | @present align inner d e p q h ih =>
    obtain rfl := hfree rfl
    by_cases hz : input.isAllZero = true
    · exact Act.Commute.idle (act_absent hz p m) (act_absent hz q n) (act_absent hz p m)
    · have hvalue := hvalid.resolve_left (mt Input.isAllZero_eq_true.mpr hz)
      exact (Position.enters_present hacc p input ctx 0).commute
        (Position.enters_present hacc q input ctx 0) hacc.1 hd (fun _ => rfl) m n hvalue
        (ih m n hacc.1 hd (fun _ => rfl) hvalue)
  | @variant ir payload d e k p q h ih =>
    by_cases htag : tag = ir.tag k
    · obtain ⟨j, hj, hpayload⟩ := hvalid
      obtain rfl : j = k := by
        rw [htag, ir.select_tag hd.1] at hj
        exact (Option.some.inj hj).symm
      exact (Position.enters_variant p input ctx htag).commute
        (Position.enters_variant q input ctx htag) (hacc.1 j).1 (hd.2 j) (fun _ => rfl) m n hpayload
        (ih m n (hacc.1 j).1 (hd.2 j) (fun _ => rfl) hpayload)
    · exact Act.Commute.idle (act_unselected htag p m input) (act_unselected htag q n input)
        (act_unselected htag p m input)

end Commute

section Party
variable {κ : Type} {c : Category} {d : κ → Category} (p : ∀ k, Position c (d k))

/-- The program of a schedule in which every party works at its own position. -/
def program : List (Σ k, Mutation (d k)) → Mutation c
  | [] => .skip
  | ⟨k, m⟩ :: rest => .seq ((p k).wrap m) (program rest)

/-- What a schedule comes to: every party's answers, in the order in which they are given. -/
structure Comes (input : Input c.wire) (l : List (Σ k, Mutation (d k))) (x : List (Σ k, Seen (d k)))
    (out : Input c.wire) : Prop where
  schedule : runSchedule (fun k => (p k).act .root 0) l input = some (x, out)
  program : ∃ trace, (program p l).run .root 0 input = some trace ∧ Trace.final input trace = out ∧
    trace.map Prod.fst = x.flatMap fun e => e.2.1

theorem Comes.of_schedule {p} {input out : Input c.wire} {l : List (Σ k, Mutation (d k))}
    {x : List (Σ k, Seen (d k))}
    (h : runSchedule (fun k => (p k).act .root 0) l input = some (x, out)) :
    Comes p input l x out := by
  refine ⟨h, ?_⟩
  induction l generalizing input x with
  | nil =>
    obtain ⟨rfl, rfl⟩ : [] = x ∧ input = out := by simpa [runSchedule] using h
    exact ⟨[], rfl, rfl, rfl⟩
  | cons e l ih =>
    obtain ⟨k, m⟩ := e
    obtain ⟨⟨a, next⟩, hact, h⟩ := Option.bind_eq_some_iff.mp h
    obtain ⟨⟨y, last⟩, hrest, h⟩ := Option.bind_eq_some_iff.mp h
    obtain ⟨rfl, rfl⟩ : ⟨k, a⟩ :: y = x ∧ last = out := by simpa using h
    obtain ⟨done, hdone, hanswer⟩ := Option.map_eq_some_iff.mp hact
    obtain ⟨rfl, rfl⟩ : _ = a ∧ Trace.final input done = next := by simpa using hanswer
    obtain ⟨more, hmore, hfinal, hresults⟩ := ih hrest
    refine ⟨done ++ more, ?_, ?_, ?_⟩
    · rw [Category.program, Mutation.run, hdone]
      change ((Category.program p l).run .root 0 (Trace.final input done) >>= _) = _
      rw [hmore]
      rfl
    · rw [Trace.final_append, hfinal]
    · simp [hresults]

end Party

end Category

namespace Schema
open Category

end Schema

end

namespace Schema
open Category

section
attribute [local instance] Target.lp64

/-- Every field of the envelope that has a handle is a party. -/
abbrev EnvelopeParty : Type := { i : Fin 3 // (envelopeFields i).tagEnum = none }

def envelopeParty (k : EnvelopeParty) : Position envelope.category (envelopeFields k) :=
  .field k.1 k.2 .here

theorem tagEnum_message : (envelopeFields messageField).tagEnum = none := rfl

theorem tagEnum_mode : (envelopeFields modeField).tagEnum = none := rfl

theorem tagEnum_reading :
    (theField (α := fun _ => Category) (primitive .u32 .native) onlyField).tagEnum = none := rfl

def writeMessage (v : BitVec 32) : Σ k : EnvelopeParty, Mutation (envelopeFields k) :=
  ⟨⟨messageField, tagEnum_message⟩,
    .variant secondVariant (.field onlyField tagEnum_reading (.call (.setScalar v)))⟩

def clearMode : Σ k : EnvelopeParty, Mutation (envelopeFields k) :=
  ⟨⟨modeField, tagEnum_mode⟩, .call (.setOptional none)⟩

end

end Schema

end ZeroSchema
