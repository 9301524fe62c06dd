import ZeroSchema.Analysis.Accept

/-! The declarations of a crate, one after the other. -/
namespace ZeroSchema
open Control

inductive CrateError
  | analysis (messages : List String)
  | expansion (error : ExpansionError)

def CrateError.Foreign : CrateError → Prop
  | analysis _ => True
  | expansion error => error.Foreign

/-- A declaration where it stands in a crate: the types in it name declarations before it, by
their position. -/
structure CrateItem where
  args : List Item
  declaration : Declaration
  schema : SynType → Option ℕ
  constant : String → Option ℕ
  tag : TagPath → Option ((ir : EnumIr) × ir.Value)

def CrateItem.environment (item : CrateItem) (known : List Category) : Environment where
  schema ty := (item.schema ty).bind fun index => known[index]?
  constant := item.constant
  tag := item.tag

section
variable [Target] [Casing] [Host] [Syn]

def CrateItem.expand (item : CrateItem) (known : List Category) : Outcome CrateError Category := do
  let analyzed ← (analyze item.args item.declaration).mapErr .analysis
  ((item.environment known).emit analyzed).mapErr .expansion

def expandItem (known : List Category) (item : CrateItem) : Outcome CrateError (List Category) := do
  let c ← item.expand known
  .ok (known ++ [c])

/-- Declarations that name each other in a circle have no layout, so there is an order in which
each names those before it only. -/
def expandCrate (items : List CrateItem) : Outcome CrateError (List Category) :=
  items.foldlM expandItem []

variable {item : CrateItem} {known : List Category}

omit [Target] [Casing] [Host] [Syn] in
theorem environment_schema {P : Category → Prop} (h : ∀ c ∈ known, P c) {ty : SynType}
    {c : Category} (hc : (item.environment known).schema ty = some c) : P c := by
  obtain ⟨index, -, hindex⟩ := Option.bind_eq_some_iff.mp hc
  exact h c (List.mem_of_getElem? hindex)

omit [Casing] [Host] [Syn] in
theorem environment_knows (h : ∀ c ∈ known, Environment.IsSchema c) :
    (item.environment known).Knows :=
  fun _ _ hc => (environment_schema h hc).1

omit [Target] in
/-- The analysis never comes to a tagged payload without a tag field. -/
theorem analyze_only {args : List Item} {d : Declaration} :
    (analyze args d).Only fun _ => True := by
  unfold analyze
  refine Outcome.Only.bind (Outcome.Only.of_ofExcept fun _ => trivial) fun options _ => ?_
  refine Outcome.Only.bind (Outcome.Only.of_ofExcept fun _ => trivial) fun _ _ => ?_
  refine Outcome.Only.bind ?_ fun analyzed _ => ?_
  · unfold analyzeBody
    split
    · unfold analyzeStruct
      split_ifs
      · trivial
      refine Outcome.Only.bind (Outcome.Only.of_ofExcept fun _ => trivial) fun declared _ => ?_
      refine Outcome.Only.bind ?_ fun links _ => trivial
      rw [linkExternalTags_eq]
      cases firstFault (linkFault declared.get) <;> trivial
    · trivial
    · exact Outcome.Only.of_ofExcept fun _ => trivial
    · trivial
    · trivial
  refine Outcome.Only.bind (Outcome.Only.of_ofExcept fun _ => trivial) fun _ _ => ?_
  exact Outcome.Only.bind (Outcome.Only.of_ofExcept fun _ => trivial) fun _ _ => trivial

/-- A property of the known schemas holds of one more. -/
theorem expandItem_all {P : Category → Prop} (h : ∀ c ∈ known, P c)
    (hitem : ∀ c, item.expand known = .ok c → P c) {after : List Category}
    (hafter : expandItem known item = .ok after) : ∀ c ∈ after, P c := by
  obtain ⟨c, hc, hafter⟩ := Outcome.bind_eq_ok.mp hafter
  rw [← Outcome.ok.inj hafter]
  intro d hd
  rcases List.mem_append.mp hd with hd | hd
  · exact h d hd
  · rw [List.mem_singleton.mp hd]
    exact hitem c hc

/-- An expansion is that of an analyzed declaration. -/
theorem expand_analyzed {c : Category} (h : item.expand known = .ok c) :
    ∃ a : Analyzed, a.Sound ∧ (item.environment known).emit a = .ok c := by
  obtain ⟨a, ha, hemit⟩ := Outcome.bind_eq_ok.mp h
  exact ⟨a, analyze_sound (Outcome.mapErr_eq_ok.mp ha), Outcome.mapErr_eq_ok.mp hemit⟩

theorem expand_accepted (h : ∀ c ∈ known, Environment.IsSchema c) {c : Category}
    (hc : item.expand known = .ok c) : Environment.IsSchema c := by
  obtain ⟨a, hsound, hemit⟩ := expand_analyzed hc
  exact Environment.emit_accepted (environment_knows h) hsound hemit

/-- A declaration behind accepted ones is refused for what it refers to only. -/
theorem expandItem_only (h : ∀ c ∈ known, Environment.IsSchema c) :
    (expandItem known item).Only CrateError.Foreign := by
  refine Outcome.Only.bind ?_ fun c _ => trivial
  refine Outcome.Only.bind (Outcome.Only.mapErr (analyze_only.mono fun _ _ => trivial)) ?_
  intro a ha
  have hsound : a.Sound := analyze_sound (Outcome.mapErr_eq_ok.mp ha)
  exact Outcome.Only.mapErr (Environment.emit_only (environment_knows h) hsound)

/-- Every declaration of a crate that compiles is a schema that the generated code is made for.
The generator reports no error of its own on what the analysis has accepted and comes to no branch
that it declares unreachable, and no record is left to the check of its size. -/
theorem crates_are_accepted (items : List CrateItem) :
    (∀ schemas, expandCrate items = .ok schemas → ∀ c ∈ schemas,
      c.Accepted ∧ (c.isPath = true ∨ c.payloadEnum.isSome = true)) ∧
    expandCrate items ≠ .unreachable ∧
    (∀ message, expandCrate items ≠ .err (.expansion (.emitted message))) ∧
    expandCrate items ≠ .err (.expansion .zeroSized) := by
  have hstart : ∀ c ∈ ([] : List Category), Environment.IsSchema c := by simp
  have hstep (known : List Category) (h : ∀ c ∈ known, Environment.IsSchema c)
      (item : CrateItem) (_ : item ∈ items) (next : List Category)
      (hnext : expandItem known item = .ok next) : ∀ c ∈ next, Environment.IsSchema c :=
    expandItem_all h (fun c hc => expand_accepted h hc) hnext
  have honly : (expandCrate items).Only CrateError.Foreign :=
    Outcome.Only.foldlM hstart hstep fun known h item _ => expandItem_only h
  refine ⟨fun schemas h => Outcome.foldlM_keeps hstart hstep h, ?_, ?_, ?_⟩
  · intro h
    rw [h] at honly
    exact honly
  · intro message h
    rw [h] at honly
    exact honly
  · intro h
    rw [h] at honly
    exact honly

end

/-! ### Tags -/

/-- Tag paths below one enum name its variants: spelled differently, they denote different
values. -/
def NamesVariants (tag : TagPath → Option ((ir : EnumIr) × ir.Value)) : Prop :=
  ∀ p q v, p.parent.text = q.parent.text → tag p = some v → tag q = some v → p.text = q.text

namespace Environment
variable {env : Environment}

theorem tagValue_eq_ok {tagType : EnumIr} {tag : TagPath} {v : tagType.Value} :
    env.tagValue tagType tag = .ok v ↔ env.tag tag = some ⟨tagType, v⟩ := by
  unfold tagValue
  cases env.tag tag with
  | none => simp
  | some value =>
    obtain ⟨ir, w⟩ := value
    dsimp only
    split_ifs with htype
    · subst htype
      simp
    · refine iff_of_false (by simp) ?_
      intro h
      exact htype (congrArg Sigma.fst (Option.some.inj h))

theorem wireType_distinct {endian : WireEndian} {ty : SynType} {c : FieldCategory}
    {storage : Category} (hknows : ∀ ty c, env.schema ty = some c → c.DistinctTags)
    (h : env.wireType endian ty c = .ok storage) : storage.DistinctTags := by
  induction c generalizing ty storage with
  | path tagged =>
    cases tagged with
    | true => exact hknows _ _ (payloadOf_eq_ok.mp h).1
    | false => exact hknows _ _ (wireOf_eq_ok.mp h).1
  | fixedBytes length =>
    obtain ⟨n, -, h⟩ := Outcome.bind_eq_ok.mp h
    obtain rfl := Outcome.ok.inj h
    trivial
  | array element length ih =>
    unfold wireType at h
    split at h
    · obtain ⟨inner, hinner, h⟩ := Outcome.bind_eq_ok.mp h
      obtain ⟨n, -, h⟩ := Outcome.bind_eq_ok.mp h
      obtain rfl := Outcome.ok.inj h
      have hdistinct : inner.DistinctTags := ih hinner
      exact hdistinct
    · cases h
  | optional inner ih =>
    unfold wireType at h
    split at h
    · exact ih h
    · cases h
  | _ =>
    obtain rfl := Outcome.ok.inj h
    trivial

theorem wireFieldType_distinct {field : DeclaredField} {sibling : Bool} {storage : Category}
    (hknows : ∀ ty c, env.schema ty = some c → c.DistinctTags)
    (h : env.wireFieldType field sibling = .ok storage) : storage.DistinctTags := by
  unfold wireFieldType at h
  split at h
  · cases h
  · obtain ⟨base, hbase, h⟩ := Outcome.bind_eq_ok.mp h
    have hdistinct := wireType_distinct hknows hbase
    split at h
    · split at h
      · obtain rfl := Outcome.ok.inj h
        trivial
      · cases h
    · split at h
      · split_ifs at h
        obtain ⟨align, -, h⟩ := Outcome.bind_eq_ok.mp h
        obtain rfl := Outcome.ok.inj h
        exact hdistinct
      · obtain rfl := Outcome.ok.inj h
        exact hdistinct

theorem emit_distinct [Target] {a : Analyzed} {storage : Category} (hnames : NamesVariants env.tag)
    (hknows : ∀ ty c, env.schema ty = some c → c.DistinctTags) (hsound : a.Sound)
    (h : env.emit a = .ok storage) : storage.DistinctTags := by
  cases a with
  | struct ident align fields links =>
    obtain ⟨categories, hcategories, h⟩ := Outcome.bind_eq_ok.mp h
    obtain ⟨aligns, -, h⟩ := Outcome.bind_eq_ok.mp h
    obtain ⟨root, -, h⟩ := Outcome.bind_eq_ok.mp h
    dsimp only at h
    split_ifs at h
    obtain rfl := Outcome.ok.inj h
    intro i
    exact wireFieldType_distinct hknows (each_eq_ok.mp hcategories i)
  | scalarEnum ident ir variants =>
    obtain rfl := Outcome.ok.inj h
    trivial
  | taggedEnum ident variants =>
    obtain ⟨-, hnodup, hparent⟩ := hsound
    obtain ⟨first, -, h⟩ := Outcome.bind_eq_ok.mp h
    obtain ⟨tagType, -, h⟩ := Outcome.bind_eq_ok.mp h
    obtain ⟨tags, htags, h⟩ := Outcome.bind_eq_ok.mp h
    obtain ⟨payload, hpayload, h⟩ := Outcome.bind_eq_ok.mp h
    obtain rfl := Outcome.ok.inj h
    have htag (k : Fin variants.length) :
        env.tag (variants.get k).tag = some ⟨tagType, tags k⟩ :=
      tagValue_eq_ok.mp (each_eq_ok.mp htags k)
    constructor
    · intro i j hij
      have htags : tags i = tags j := hij
      have hi := htag i
      rw [htags] at hi
      have hsame : (variants.get i).tag.parent.text = (variants.get j).tag.parent.text :=
        hparent _ (List.get_mem variants i) _ (List.get_mem variants j)
      exact tag_text_injective hnodup (hnames _ _ _ hsame hi (htag j))
    · intro k
      have hk := each_eq_ok.mp hpayload k
      unfold payloadType at hk
      split at hk
      · rw [← Outcome.ok.inj hk]
        trivial
      · exact hknows _ _ (wireOf_eq_ok.mp hk).1

end Environment

section
variable [Target] [Casing] [Host] [Syn]

/-- Two variants of a payload never share a tag in a crate whose tags are spelled as variants of
their enum, and not as constants that are equal to one. -/
theorem tags_are_distinct {items : List CrateItem} {schemas : List Category}
    (hnames : ∀ item ∈ items, NamesVariants item.tag)
    (h : expandCrate items = .ok schemas) : ∀ c ∈ schemas, c.DistinctTags := by
  have hstart : ∀ c ∈ ([] : List Category), c.DistinctTags := by simp
  refine Outcome.foldlM_keeps (I := fun known => ∀ c ∈ known, c.DistinctTags) hstart ?_ h
  intro known hknown item hitem next hnext
  refine expandItem_all hknown ?_ hnext
  intro c hc
  obtain ⟨a, hsound, hemit⟩ := expand_analyzed hc
  have hknows (ty : SynType) (c : Category)
      (hc : (item.environment known).schema ty = some c) : c.DistinctTags :=
    environment_schema hknown hc
  exact Environment.emit_distinct (hnames item hitem) hknows hsound hemit

end

section Samples

/-- The parser of token streams names what it wants. -/
@[reducible] def quietSyn : Syn where
  expected wanted _ := wanted

def plainDeclaration (ident : String) (attrs : List Attribute) (body : Body) : Declaration where
  ident := ident
  attrs := attrs
  lifetimes := []
  paramAttrs := []
  body := body

def zeroAttribute (name : String) (value : MetaValue) : Attribute :=
  ⟨"zero", [.ok ⟨[name], value⟩]⟩

def typeNamed (name : String) : SynType := .path false false [⟨name, true⟩]

def kindPath (name : String) : TagPath := ⟨false, ["Kind", name]⟩

/-- `#[repr(u8)] enum Kind { Empty = 0, Data = 1 }`. -/
def kindDeclaration : Declaration :=
  plainDeclaration "Kind" [⟨"repr", [.ok ⟨["u8"], .absent⟩]⟩] (.enum
    [⟨"Empty", [], .unit, some (.literal ⟨['0'], "", by decide⟩)⟩,
      ⟨"Data", [], .unit, some (.literal ⟨['1'], "", by decide⟩)⟩])

/-- `struct Reading { value: u32 }`. -/
def readingDeclaration : Declaration :=
  plainDeclaration "Reading" [] (.named [⟨"value", [], typeNamed "u32"⟩])

/-- `enum Message { Empty, Data(Reading) }` under the tags of `Kind`. -/
def messageDeclaration : Declaration :=
  plainDeclaration "Message" [] (.enum
    [⟨"Empty", [zeroAttribute "tag" (.path (kindPath "Empty"))], .unit, none⟩,
      ⟨"Data", [zeroAttribute "tag" (.path (kindPath "Data"))], .unnamed [typeNamed "Reading"],
        none⟩])

/-- `struct Notice { kind: Kind, message: Message }`. -/
def noticeDeclaration : Declaration :=
  plainDeclaration "Notice" [] (.named
    [⟨"kind", [], typeNamed "Kind"⟩,
      ⟨"message", [zeroAttribute "tag_field" (.ident "kind")], typeNamed "Message"⟩])

def noticeSchema : SynType → Option ℕ
  | .path false false [segment] =>
    match segment.ident with
    | "Kind" => some 0
    | "Reading" => some 1
    | "Message" => some 2
    | _ => none
  | _ => none

def kindTag (p : TagPath) : Option ((ir : EnumIr) × ir.Value) :=
  if p = kindPath "Empty" then some ⟨kind, emptyKind⟩
  else if p = kindPath "Data" then some ⟨kind, dataKind⟩
  else none

def noticeCrate : List CrateItem :=
  [kindDeclaration, readingDeclaration, messageDeclaration, noticeDeclaration].map fun d =>
    { args := []
      declaration := d
      schema := noticeSchema
      constant := fun _ => none
      tag := kindTag }

theorem kindTag_namesVariants : NamesVariants kindTag := by
  intro p q v _ hp hq
  unfold kindTag at hp hq
  have hapart : (⟨kind, emptyKind⟩ : (ir : EnumIr) × ir.Value) ≠ ⟨kind, dataKind⟩ := by
    intro h
    cases h
  split_ifs at hp with hpe hpd
  · split_ifs at hq with hqe hqd
    · rw [hpe, hqe]
    · exact absurd (Option.some.inj (hp.trans hq.symm)) hapart
  · split_ifs at hq with hqe hqd
    · exact absurd (Option.some.inj (hq.trans hp.symm)) hapart
    · rw [hpd, hqd]

theorem noticeCrate_expands :
    letI := Target.lp64
    letI := Casing.ascii
    letI := Host.lp64
    letI := quietSyn
    (expandCrate noticeCrate).value?.map List.length = some 4 := by
  decide +kernel

theorem tags_are_distinct_notice :
    letI := Target.lp64
    letI := Casing.ascii
    letI := Host.lp64
    letI := quietSyn
    ∃ schemas, expandCrate noticeCrate = .ok schemas ∧ schemas.length = 4 ∧
      ∀ c ∈ schemas, c.DistinctTags := by
  obtain ⟨schemas, h, hfour⟩ := Option.map_eq_some_iff.mp noticeCrate_expands
  have hcrate := Outcome.value?_eq_some.mp h
  have hnames : ∀ item ∈ noticeCrate, NamesVariants item.tag := by
    intro item hitem
    obtain ⟨d, -, rfl⟩ := List.mem_map.mp hitem
    exact kindTag_namesVariants
  exact ⟨schemas, hcrate, hfour,
    @tags_are_distinct Target.lp64 Casing.ascii Host.lp64 quietSyn _ _ hnames hcrate⟩

end Samples

end ZeroSchema
