import ZeroSchema.Analysis.Literal
import ZeroSchema.Library.Keyed
import Mathlib.Data.Finset.Insert

/-! The options that `zero` attributes give to a container, to a field and to a variant. -/
namespace ZeroSchema
open Keyed

/-- A path to a tag, with its segments as they are written. -/
structure TagPath where
  leadingColon : Bool
  segments : List String
deriving DecidableEq

/-- What stands behind the name of an option. A `path` is more than one identifier. -/
inductive MetaValue
  | absent
  | str (value : String)
  | int (literal : LitInt)
  | ident (name : String)
  | path (p : TagPath)
  | lifetime (name : String)
  | other

namespace MetaValue

def asStr : MetaValue → Option String
  | str value => some value
  | _ => none

def asInt : MetaValue → Option LitInt
  | int literal => some literal
  | _ => none

def asIdent : MetaValue → Option String
  | ident name => some name
  | _ => none

/-- An identifier is a path of one segment. -/
def asPath : MetaValue → Option TagPath
  | ident name => some ⟨false, [name]⟩
  | path p => some p
  | _ => none

def asLifetime : MetaValue → Option String
  | lifetime name => some name
  | _ => none

end MetaValue

structure Meta where
  path : List String
  value : MetaValue

/-- The parser of token streams: what it says when it wants one kind of token and finds another. -/
class Syn where
  expected : String → MetaValue → String

/-- The items of one attribute. An item that the parser of token streams refuses is its message. -/
abbrev Item : Type := Except String Meta

structure Attribute where
  name : String
  items : List Item

def isZero (attr : Attribute) : Bool := attr.name = "zero"

/-- The items of the `zero` attributes, one group for each. -/
def zeroItems (attrs : List Attribute) : List (List Item) := (attrs.filter isZero).map (·.items)

def WireInt.ident : WireInt → String
  | u8 => "u8"
  | u16 => "u16"
  | u32 => "u32"

def WireInt.ofIdent (name : String) : Option WireInt :=
  if name = "u8" then some .u8 else if name = "u16" then some .u16
  else if name = "u32" then some .u32 else none

def WireEndian.name : WireEndian → String
  | native => "native"
  | little => "little"
  | big => "big"

/-- The options of a field; the analysis of its category does not look at the alignment. -/
structure DeclaredOptions extends FieldOptions where
  align : Option ℕ

structure ContainerOptions where
  endian : WireEndian
  endianGiven : Bool
  align : Option ℕ
  runtime : Option TagPath
  borrow : Option String

inductive FieldOption
  | capacity (n : ℕ)
  | lenType (w : WireInt)
  | endian (e : WireEndian)
  | align (n : ℕ)
  | tagField (name : String)

inductive ContainerOption
  | endian (e : WireEndian)
  | align (n : ℕ)
  | runtime (p : TagPath)
  | borrow (name : String)

namespace Meta
section
variable [Syn]

def key (m : Meta) : Except String String :=
  match m.path with
  | [name] => .ok name
  | _ => .error "zero option names must be identifiers"

/-- Wants one kind of value behind the name. -/
def want {α : Type} (m : Meta) (kind : String) (read : MetaValue → Option α) : Except String α :=
  match read m.value with
  | some a => .ok a
  | none => .error (Syn.expected kind m.value)

def parseEndian (m : Meta) : Except String WireEndian := do
  let value ← m.want "string literal" MetaValue.asStr
  if value = "native" then .ok .native
  else if value = "little" then .ok .little
  else if value = "big" then .ok .big
  else .error "endian must be \"native\", \"little\", or \"big\""

def parseIdent (m : Meta) : Except String String := m.want "identifier" MetaValue.asIdent

def parsePath (m : Meta) : Except String TagPath := m.want "path" MetaValue.asPath

def parseLifetime (m : Meta) : Except String String := m.want "lifetime" MetaValue.asLifetime

def parseLenType (m : Meta) : Except String WireInt := do
  match WireInt.ofIdent (← m.parseIdent) with
  | some w => .ok w
  | none => .error "len_type must be u8, u16, or u32"

def parseAlignment (m : Meta) : Except String ℕ := do
  let literal ← m.want "integer literal" MetaValue.asInt
  literal.parseAlignment

def parseCapacity [Host] (m : Meta) : Except String ℕ := do
  let literal ← m.want "integer literal" MetaValue.asInt
  literal.parseCapacity

/-! ### One option -/

def parseField [Host] (key : String) (m : Meta) : Except String FieldOption :=
  if key = "capacity" then m.parseCapacity.map .capacity
  else if key = "len_type" then m.parseLenType.map .lenType
  else if key = "endian" then m.parseEndian.map .endian
  else if key = "align" then m.parseAlignment.map .align
  else if key = "tag_field" then m.parseIdent.map .tagField
  else if key = "crate" ∨ key = "borrow" ∨ key = "tag" then
    .error ("`" ++ key ++ "` is not a field zero option")
  else .error ("unknown field zero option `" ++ key ++ "`")

def parseContainer (key : String) (m : Meta) : Except String ContainerOption :=
  if key = "endian" then m.parseEndian.map .endian
  else if key = "align" then m.parseAlignment.map .align
  else if key = "crate" then m.parsePath.map .runtime
  else if key = "borrow" then m.parseLifetime.map .borrow
  else if key = "tag" then .error "tag is only valid on tagged-enum variants"
  else .error ("unknown container zero option `" ++ key ++ "`")

def parseVariant (key : String) (m : Meta) : Except String TagPath :=
  if key = "tag" then m.parsePath
  else .error ("`" ++ key ++ "` is not a tagged-variant zero option")

end
end Meta

def DeclaredOptions.set (options : DeclaredOptions) : FieldOption → DeclaredOptions
  | .capacity n => { options with capacity := some n }
  | .lenType w => { options with lenType := some w }
  | .endian e => { options with endian := some e }
  | .align n => { options with align := some n }
  | .tagField name => { options with tagField := some name }

def ContainerOptions.set (options : ContainerOptions) : ContainerOption → ContainerOptions
  | .endian e => { options with endian := e, endianGiven := true }
  | .align n => { options with align := some n }
  | .runtime p => { options with runtime := some p }
  | .borrow name => { options with borrow := some name }

/-! ### The parsers -/

section
variable [Syn]

def duplicate (key : String) : String := "duplicate zero option `" ++ key ++ "`"

/-- Options with the keys that were seen. -/
@[reducible] def seenReader {ν σ : Type} (value : String → Meta → Except String ν)
    (set : σ → ν → σ) : Reader Item String ν (σ × Finset String) String where
  key item := item >>= Meta.key
  taken key state := key ∈ state.2
  repeated := duplicate
  mark key state := (state.1, insert key state.2)
  value key item := item >>= value key
  set v state := (set state.1 v, state.2)

/-- A variant has one option, and whether it has been seen is whether there is one. -/
@[reducible] def variantReader : Reader Item String TagPath (Option TagPath) String where
  key item := item >>= Meta.key
  taken key state := key = "tag" ∧ state.isSome
  repeated := duplicate
  mark _ state := state
  value key item := item >>= Meta.parseVariant key
  set p _ := some p

def noOptions : DeclaredOptions := ⟨⟨none, none, none, none⟩, none⟩

def defaultContainer : ContainerOptions := ⟨.native, false, none, none, none⟩

def fieldOptions [Host] (attrs : List Attribute) : Except (List String) DeclaredOptions :=
  ((seenReader Meta.parseField DeclaredOptions.set).read (noOptions, ∅)
    (zeroItems attrs)).map Prod.fst

/-- The arguments of the macro stand before its attributes. -/
def containerOptions (args : List Item) (attrs : List Attribute) :
    Except (List String) ContainerOptions :=
  ((seenReader Meta.parseContainer ContainerOptions.set).read (defaultContainer, ∅)
    (args :: zeroItems attrs)).map Prod.fst

def variantOptions (attrs : List Attribute) : Except (List String) (Option TagPath) :=
  variantReader.read none (zeroItems attrs)

end

/-! ### The grammar of options -/

namespace FieldOption

def key : FieldOption → String
  | capacity _ => "capacity"
  | lenType _ => "len_type"
  | endian _ => "endian"
  | align _ => "align"
  | tagField _ => "tag_field"

def Spells [Host] (value : MetaValue) : FieldOption → Prop
  | capacity n => ∃ literal, value = .int literal ∧ literal.suffix = "" ∧ literal.Denotes n ∧
      n ≤ Host.usizeMax
  | lenType w => value = .ident w.ident
  | endian e => value = .str e.name
  | align n => ∃ literal, value = .int literal ∧ literal.suffix = "" ∧ literal.Denotes n ∧
      ∃ log ≤ 29, n = 2 ^ log
  | tagField name => value = .ident name

/-- An item that is the name of an option and its value. -/
def Spelled [Host] (item : Item) (v : FieldOption) : Prop :=
  ∃ value, item = .ok ⟨[v.key], value⟩ ∧ v.Spells value

end FieldOption

namespace ContainerOption

def key : ContainerOption → String
  | endian _ => "endian"
  | align _ => "align"
  | runtime _ => "crate"
  | borrow _ => "borrow"

def Spells (value : MetaValue) : ContainerOption → Prop
  | endian e => value = .str e.name
  | align n => ∃ literal, value = .int literal ∧ literal.suffix = "" ∧ literal.Denotes n ∧
      ∃ log ≤ 29, n = 2 ^ log
  | runtime p => value.asPath = some p
  | borrow name => value = .lifetime name

def Spelled (item : Item) (v : ContainerOption) : Prop :=
  ∃ value, item = .ok ⟨[v.key], value⟩ ∧ v.Spells value

end ContainerOption

def TagPath.Spelled (item : Item) (p : TagPath) : Prop :=
  ∃ value, item = .ok ⟨["tag"], value⟩ ∧ value.asPath = some p

namespace Meta
variable {item : Item} {k : String}

theorem key_eq_ok : item >>= key = .ok k ↔ ∃ value, item = .ok ⟨[k], value⟩ := by
  constructor
  · intro h
    obtain ⟨⟨path, value⟩, hitem, hkey⟩ := except_bind_ok h
    unfold key at hkey
    split at hkey
    · next name hname =>
      have hpath : path = [name] := hname
      obtain rfl := Except.ok.inj hkey
      exact ⟨value, by rw [hitem, hpath]⟩
    · cases hkey
  · intro ⟨value, h⟩
    rw [h]
    rfl

variable [Syn] {m : Meta}

theorem want_eq_ok {α : Type} {kind : String} {read : MetaValue → Option α} {a : α} :
    m.want kind read = .ok a ↔ read m.value = some a := by
  unfold want
  split
  · next b hb => simp [hb]
  · next hnone => simp [hnone]

omit [Syn] in
theorem asInt_eq_some {value : MetaValue} {literal : LitInt} :
    value.asInt = some literal ↔ value = .int literal := by
  cases value <;> simp [MetaValue.asInt]

theorem parseEndian_eq_ok {e : WireEndian} : m.parseEndian = .ok e ↔ m.value = .str e.name := by
  have hname (value : String) : m.value.asStr = some value ↔ m.value = .str value := by
    cases m.value <;> simp [MetaValue.asStr]
  unfold parseEndian
  constructor
  · intro h
    obtain ⟨value, hvalue, h⟩ := except_bind_ok h
    rw [want_eq_ok, hname] at hvalue
    rw [hvalue]
    split_ifs at h with hnative hlittle hbig
    · rw [← Except.ok.inj h, hnative]
      rfl
    · rw [← Except.ok.inj h, hlittle]
      rfl
    · rw [← Except.ok.inj h, hbig]
      rfl
  · intro h
    rw [want_eq_ok.mpr ((hname e.name).mpr h)]
    cases e <;> rfl

theorem parseLenType_eq_ok {w : WireInt} : m.parseLenType = .ok w ↔ m.value = .ident w.ident := by
  have hident (name : String) : m.value.asIdent = some name ↔ m.value = .ident name := by
    cases m.value <;> simp [MetaValue.asIdent]
  unfold parseLenType parseIdent
  constructor
  · intro h
    obtain ⟨name, hname, h⟩ := except_bind_ok h
    rw [want_eq_ok, hident] at hname
    rw [hname]
    unfold WireInt.ofIdent at h
    split_ifs at h with hu8 hu16 hu32
    · rw [← Except.ok.inj h, hu8]
      rfl
    · rw [← Except.ok.inj h, hu16]
      rfl
    · rw [← Except.ok.inj h, hu32]
      rfl
  · intro h
    rw [want_eq_ok.mpr ((hident w.ident).mpr h)]
    cases w <;> rfl

theorem literal_eq_ok {α : Type} {read : LitInt → Except String α} {a : α} :
    (m.want "integer literal" MetaValue.asInt >>= read) = .ok a ↔
      ∃ literal, m.value = .int literal ∧ read literal = .ok a := by
  constructor
  · intro h
    obtain ⟨literal, hliteral, h⟩ := except_bind_ok h
    exact ⟨literal, asInt_eq_some.mp (want_eq_ok.mp hliteral), h⟩
  · intro ⟨literal, hvalue, h⟩
    rw [want_eq_ok.mpr (asInt_eq_some.mpr hvalue)]
    exact h

theorem parseAlignment_eq_ok {n : ℕ} : m.parseAlignment = .ok n ↔
    ∃ literal, m.value = .int literal ∧ literal.suffix = "" ∧ literal.Denotes n ∧
      ∃ log ≤ 29, n = 2 ^ log := by
  unfold parseAlignment
  simp only [literal_eq_ok, LitInt.parseAlignment_eq_ok]

theorem parseCapacity_eq_ok [Host] {n : ℕ} : m.parseCapacity = .ok n ↔
    ∃ literal, m.value = .int literal ∧ literal.suffix = "" ∧ literal.Denotes n ∧
      n ≤ Host.usizeMax := by
  unfold parseCapacity
  simp only [literal_eq_ok, LitInt.parseCapacity_eq_ok]

omit [Syn] in
theorem map_eq_ok {ε α β : Type} {x : Except ε α} {f : α → β} {b : β} :
    x.map f = .ok b ↔ ∃ a, x = .ok a ∧ f a = b := by
  constructor
  · exact except_map_ok
  · intro ⟨a, hx, hb⟩
    rw [hx, ← hb]
    rfl

theorem parseIdent_eq_ok {name : String} : m.parseIdent = .ok name ↔ m.value = .ident name := by
  unfold parseIdent
  rw [want_eq_ok]
  cases m.value <;> simp [MetaValue.asIdent]

theorem parseLifetime_eq_ok {name : String} :
    m.parseLifetime = .ok name ↔ m.value = .lifetime name := by
  unfold parseLifetime
  rw [want_eq_ok]
  cases m.value <;> simp [MetaValue.asLifetime]

theorem parseField_eq_ok [Host] {v : FieldOption} :
    m.parseField k = .ok v ↔ k = v.key ∧ v.Spells m.value := by
  unfold parseField
  split_ifs with hcapacity hlen hendian halign htag hmisplaced
  · rw [hcapacity, map_eq_ok]
    cases v <;> simp [FieldOption.key, FieldOption.Spells, parseCapacity_eq_ok]
  · rw [hlen, map_eq_ok]
    cases v <;> simp [FieldOption.key, FieldOption.Spells, parseLenType_eq_ok]
  · rw [hendian, map_eq_ok]
    cases v <;> simp [FieldOption.key, FieldOption.Spells, parseEndian_eq_ok]
  · rw [halign, map_eq_ok]
    cases v <;> simp [FieldOption.key, FieldOption.Spells, parseAlignment_eq_ok]
  · rw [htag, map_eq_ok]
    cases v <;> simp [FieldOption.key, FieldOption.Spells, parseIdent_eq_ok]
  all_goals
    constructor
    · intro h
      cases h
    · intro h
      cases v <;> exact absurd h.1 ‹_›

theorem parseContainer_eq_ok {v : ContainerOption} :
    m.parseContainer k = .ok v ↔ k = v.key ∧ v.Spells m.value := by
  unfold parseContainer
  split_ifs with hendian halign hcrate hborrow htag
  · rw [hendian, map_eq_ok]
    cases v <;> simp [ContainerOption.key, ContainerOption.Spells, parseEndian_eq_ok]
  · rw [halign, map_eq_ok]
    cases v <;> simp [ContainerOption.key, ContainerOption.Spells, parseAlignment_eq_ok]
  · rw [hcrate, map_eq_ok]
    cases v <;> simp [ContainerOption.key, ContainerOption.Spells, parsePath, want_eq_ok]
  · rw [hborrow, map_eq_ok]
    cases v <;> simp [ContainerOption.key, ContainerOption.Spells, parseLifetime_eq_ok]
  all_goals
    constructor
    · intro h
      cases h
    · intro h
      cases v <;> exact absurd h.1 ‹_›

theorem parseVariant_eq_ok {p : TagPath} :
    m.parseVariant k = .ok p ↔ k = "tag" ∧ m.value.asPath = some p := by
  unfold parseVariant
  split_ifs with htag
  · rw [and_iff_right htag]
    exact want_eq_ok
  · constructor
    · intro h
      cases h
    · intro h
      exact absurd h.1 htag

end Meta

/-! ### What the parsers accept -/

section
variable {ν σ : Type} {value : String → Meta → Except String ν} {set : σ → ν → σ}
  {key : ν → String} {Spells : MetaValue → ν → Prop}

theorem seenReader_lawful : (seenReader value set).Lawful where
  taken_self := by
    intro item entry state _
    simp [Reader.put]
  taken_other := by
    intro item entry state k _ hne
    simp [Reader.put, hne]

theorem seenReader_reads (hvalue : ∀ k m v, value k m = .ok v ↔ k = key v ∧ Spells m.value v)
    (item : Item) (entry : String × ν) : (seenReader value set).Reads item entry ↔
      entry.1 = key entry.2 ∧
        ∃ spelling, item = .ok ⟨[key entry.2], spelling⟩ ∧ Spells spelling entry.2 := by
  obtain ⟨k, v⟩ := entry
  show item >>= Meta.key = .ok k ∧ item >>= value k = .ok v ↔
    k = key v ∧ ∃ spelling, item = .ok ⟨[key v], spelling⟩ ∧ Spells spelling v
  rw [Meta.key_eq_ok]
  constructor
  · intro ⟨⟨spelling, hitem⟩, hread⟩
    rw [hitem] at hread
    obtain ⟨hkey, hspells⟩ := (hvalue k _ v).mp hread
    exact ⟨hkey, spelling, hkey ▸ hitem, hspells⟩
  · intro ⟨hkey, spelling, hitem, hspells⟩
    rw [← hkey] at hitem
    refine ⟨⟨spelling, hitem⟩, ?_⟩
    rw [hitem]
    exact (hvalue k _ v).mpr ⟨hkey, hspells⟩

/-- The options are those that the items spell, one for each key, in any order. -/
theorem seenReader_eq_ok (hvalue : ∀ k m v, value k m = .ok v ↔ k = key v ∧ Spells m.value v)
    (hcomm : ∀ state v w, key v ≠ key w → set (set state v) w = set (set state w) v)
    {start options : σ} {groups : List (List Item)} :
    ((seenReader value set).read (start, ∅) groups).map Prod.fst = .ok options ↔
      ∃ items values, items.Perm groups.flatten ∧
        List.Forall₂ (fun item v => ∃ spelling, item = .ok ⟨[key v], spelling⟩ ∧
          Spells spelling v) items values ∧
        (values.map key).Nodup ∧ options = values.foldl set start := by
  have hput (values : List ν) (seen : Finset String) : (values.foldl
      (fun state v => (seenReader value set).put state (key v, v)) (start, seen)).1 =
        values.foldl set start := by
    induction values generalizing start seen with
    | nil => rfl
    | cons v values ih => exact ih (insert (key v) seen)
  have hstart (k : String) : (seenReader value set).taken k (start, ∅) = false := by
    simp
  have hread (state : σ × Finset String) :
      (seenReader value set).read (start, ∅) groups = .ok state ↔
        ∃ values, List.Forall₂ (fun item v => ∃ spelling, item = .ok ⟨[key v], spelling⟩ ∧
          Spells spelling v) groups.flatten values ∧ (values.map key).Nodup ∧
          state = values.foldl (fun state v => (seenReader value set).put state (key v, v))
            (start, ∅) :=
    Reader.read_values seenReader_lawful hstart (seenReader_reads hvalue)
  rw [Meta.map_eq_ok]
  constructor
  · intro ⟨state, hstate, hoptions⟩
    obtain ⟨values, hspelled, hnodup, heq⟩ := (hread state).mp hstate
    refine ⟨groups.flatten, values, List.Perm.refl _, hspelled, hnodup, ?_⟩
    rw [← hoptions, heq, hput]
  · intro ⟨items, values, hperm, hspelled, hnodup, hoptions⟩
    obtain ⟨values', hspelled', hvalues⟩ := List.perm_comp_forall₂ hperm.symm hspelled
    have hnodup' : (values'.map key).Nodup := (hvalues.map key).nodup_iff.mpr hnodup
    refine ⟨_, (hread _).mpr ⟨values', hspelled', hnodup', rfl⟩, ?_⟩
    rw [hput, hoptions]
    exact foldl_perm hcomm hvalues hnodup' start

end

theorem DeclaredOptions.set_comm (options : DeclaredOptions) (v w : FieldOption)
    (h : v.key ≠ w.key) : (options.set v).set w = (options.set w).set v := by
  cases v <;> cases w <;> first | rfl | exact absurd rfl h

theorem ContainerOptions.set_comm (options : ContainerOptions) (v w : ContainerOption)
    (h : v.key ≠ w.key) : (options.set v).set w = (options.set w).set v := by
  cases v <;> cases w <;> first | rfl | exact absurd rfl h

section
variable [Syn]

theorem variantReader_lawful : variantReader.Lawful where
  taken_self := by
    intro item entry state hread
    obtain ⟨m, -, hvalue⟩ := except_bind_ok hread.2
    have hkey := (Meta.parseVariant_eq_ok.mp hvalue).1
    simp [Reader.put, hkey]
  taken_other := by
    intro item entry state k hread hne
    obtain ⟨m, -, hvalue⟩ := except_bind_ok hread.2
    have hkey := (Meta.parseVariant_eq_ok.mp hvalue).1
    rw [hkey] at hne
    simp [Reader.put, hne]

theorem variantReader_reads (item : Item) (entry : String × TagPath) :
    variantReader.Reads item entry ↔ entry.1 = "tag" ∧ TagPath.Spelled item entry.2 := by
  obtain ⟨k, p⟩ := entry
  show item >>= Meta.key = .ok k ∧ item >>= Meta.parseVariant k = .ok p ↔
    k = "tag" ∧ TagPath.Spelled item p
  unfold TagPath.Spelled
  rw [Meta.key_eq_ok]
  constructor
  · intro ⟨⟨spelling, hitem⟩, hread⟩
    rw [hitem] at hread
    obtain ⟨hkey, hpath⟩ := Meta.parseVariant_eq_ok.mp hread
    exact ⟨hkey, spelling, hkey ▸ hitem, hpath⟩
  · intro ⟨hkey, spelling, hitem, hpath⟩
    rw [hkey]
    refine ⟨⟨spelling, hitem⟩, ?_⟩
    rw [hitem]
    exact Meta.parseVariant_eq_ok.mpr ⟨rfl, hpath⟩

theorem variantOptions_eq_ok {attrs : List Attribute} {option : Option TagPath} :
    variantOptions attrs = .ok option ↔ ∃ values, values.length ≤ 1 ∧
      List.Forall₂ TagPath.Spelled (zeroItems attrs).flatten values ∧ option = values.head? := by
  have hstart (k : String) : variantReader.taken k none = false := by simp
  have hnodup (values : List TagPath) :
      (values.map fun _ => "tag").Nodup ↔ values.length ≤ 1 := by
    match values with
    | [] | [_] => simp
    | _ :: _ :: _ => simp
  have hlast (values : List TagPath) (hlength : values.length ≤ 1) :
      values.foldl (fun state p => variantReader.put state ("tag", p)) none = values.head? := by
    match values with
    | [] | [_] => rfl
    | _ :: _ :: rest => exact absurd hlength (by simp)
  have hread : variantReader.read none (zeroItems attrs) = .ok option ↔
      ∃ values, List.Forall₂ TagPath.Spelled (zeroItems attrs).flatten values ∧
        (values.map fun _ => "tag").Nodup ∧
        option = values.foldl (fun state p => variantReader.put state ("tag", p)) none :=
    Reader.read_values variantReader_lawful hstart variantReader_reads
  unfold variantOptions
  rw [hread]
  constructor
  · intro ⟨values, hspelled, hone, hoption⟩
    have hlength := (hnodup values).mp hone
    exact ⟨values, hlength, hspelled, hoption.trans (hlast values hlength)⟩
  · intro ⟨values, hlength, hspelled, hoption⟩
    exact ⟨values, hspelled, (hnodup values).mpr hlength,
      hoption.trans (hlast values hlength).symm⟩

theorem fieldOptions_eq_ok [Host] {attrs : List Attribute} {options : DeclaredOptions} :
    fieldOptions attrs = .ok options ↔
      ∃ items values, items.Perm (zeroItems attrs).flatten ∧
        List.Forall₂ FieldOption.Spelled items values ∧ (values.map FieldOption.key).Nodup ∧
        options = values.foldl DeclaredOptions.set noOptions :=
  seenReader_eq_ok (fun _ _ _ => Meta.parseField_eq_ok) DeclaredOptions.set_comm

theorem containerOptions_eq_ok {args : List Item} {attrs : List Attribute}
    {options : ContainerOptions} : containerOptions args attrs = .ok options ↔
      ∃ items values, items.Perm (args ++ (zeroItems attrs).flatten) ∧
        List.Forall₂ ContainerOption.Spelled items values ∧
        (values.map ContainerOption.key).Nodup ∧
        options = values.foldl ContainerOptions.set defaultContainer :=
  seenReader_eq_ok (fun _ _ _ => Meta.parseContainer_eq_ok) ContainerOptions.set_comm

/-- Options are accepted when their items, in any order and any grouping, are spelled as the
grammar has it and no key repeats, and they are then those that are spelled. -/
theorem options_are_exact [Host] :
    (∀ attrs options, fieldOptions attrs = .ok options ↔
      ∃ items values, items.Perm (zeroItems attrs).flatten ∧
        List.Forall₂ FieldOption.Spelled items values ∧ (values.map FieldOption.key).Nodup ∧
        options = values.foldl DeclaredOptions.set noOptions) ∧
    (∀ args attrs options, containerOptions args attrs = .ok options ↔
      ∃ items values, items.Perm (args ++ (zeroItems attrs).flatten) ∧
        List.Forall₂ ContainerOption.Spelled items values ∧
        (values.map ContainerOption.key).Nodup ∧
        options = values.foldl ContainerOptions.set defaultContainer) ∧
    ∀ attrs option, variantOptions attrs = .ok option ↔ ∃ values, values.length ≤ 1 ∧
      List.Forall₂ TagPath.Spelled (zeroItems attrs).flatten values ∧ option = values.head? := by
  refine ⟨?_, ?_, ?_⟩
  · intro attrs options
    exact fieldOptions_eq_ok
  · intro args attrs options
    exact containerOptions_eq_ok
  · intro attrs option
    exact variantOptions_eq_ok

/-! ### Alignments that are declared -/

/-- The alignments that have a marker type. -/
def IsAlignment (value : ℕ) : Prop := ∃ log ≤ 29, value = 2 ^ log

omit [Syn] in
theorem spelled_of_mem {ι ν : Type} {Spelled : ι → ν → Prop} {items : List ι}
    {values : List ν} (h : List.Forall₂ Spelled items values) {v : ν} (hv : v ∈ values) :
    ∃ item, Spelled item v := by
  induction h with
  | nil => cases hv
  | @cons item w items values hw hrest ih =>
    rcases List.mem_cons.mp hv with rfl | hv
    · exact ⟨item, hw⟩
    · exact ih hv

theorem fieldOptions_align [Host] {attrs : List Attribute} {options : DeclaredOptions} {n : ℕ}
    (h : fieldOptions attrs = .ok options) (hn : options.align = some n) : IsAlignment n := by
  obtain ⟨items, values, -, hspelled, -, rfl⟩ := fieldOptions_eq_ok.mp h
  have hset (state : DeclaredOptions) (v : FieldOption) (t : ℕ) (hv : (state.set v).align = some t) :
      state.align = some t ∨ v = .align t := by
    cases v with
    | align m => exact Or.inr (congrArg FieldOption.align (Option.some.inj hv))
    | _ => exact Or.inl hv
  rcases shows_foldl hset hn with hstart | hmem
  · cases hstart
  · obtain ⟨item, value, -, literal, -, -, -, hlog⟩ := spelled_of_mem hspelled hmem
    exact hlog

theorem containerOptions_align {args : List Item} {attrs : List Attribute}
    {options : ContainerOptions} {n : ℕ} (h : containerOptions args attrs = .ok options)
    (hn : options.align = some n) : IsAlignment n := by
  obtain ⟨items, values, -, hspelled, -, rfl⟩ := containerOptions_eq_ok.mp h
  have hset (state : ContainerOptions) (v : ContainerOption) (t : ℕ)
      (hv : (state.set v).align = some t) : state.align = some t ∨ v = .align t := by
    cases v with
    | align m => exact Or.inr (congrArg ContainerOption.align (Option.some.inj hv))
    | _ => exact Or.inl hv
  rcases shows_foldl hset hn with hstart | hmem
  · cases hstart
  · obtain ⟨item, value, -, literal, -, -, -, hlog⟩ := spelled_of_mem hspelled hmem
    exact hlog

end

end ZeroSchema
