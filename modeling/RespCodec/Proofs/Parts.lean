/-
# The parts of a value

A value is a tree: elements stand one level below the aggregate that holds them, and
an attributes unit stands beside the value that carries it, on the same level.
`Value.parts` lists the value and all that is in it, each part with its level, and a
statement about every part is one about the value itself, its attributes unit and its
elements (`Value.allParts_iff`).

`Value.WellFormed` is such a statement.  It says of each part which data fit its kind:

| data | kinds |
| --- | --- |
| text | blob strings, blob errors, verbatim strings; without a line feed, the kinds of lines |
| number | integers; zero and one, booleans |
| null | null, end of stream, attributes |
| elements | arrays, sets, pushes; an even number of them, maps and attributes |

Both the table and the limits can be checked by evaluation.

`Value.bare` is a value without attributes units, its own and those of elements at any
depth.
-/

import Mathlib.Algebra.Group.Nat.Defs
import RespCodec.Config
import RespCodec.Value.Basic

namespace RespCodec

/-- A value inside a value, or the value itself. -/
structure Part where
  /-- The part is the attributes unit of another. -/
  attached : Bool
  /-- How many aggregates the part is inside of. -/
  level : Nat
  value : Value

/-- The elements in data. -/
def Data.items {ν : Type} : Data ν → List ν
  | .elements items => items
  | _ => []

namespace Value

/-- A value is made of its kind, its data and its attributes. -/
theorem eta (value : Value) : ⟨value.kind, value.data, value.attributes⟩ = value := by
  cases value
  rfl

mutual

/-- A value on a level, and all that is in it. -/
def partsAt (attached : Bool) (level : Nat) : Value → List Part
  | ⟨kind, data, attributes⟩ =>
    ⟨attached, level, ⟨kind, data, attributes⟩⟩ ::
      (partsOfUnit level attributes ++ partsOfData (level + 1) data)
termination_by structural value => value

/-- The parts of an attributes unit, if there is one. -/
def partsOfUnit (level : Nat) : Option Value → List Part
  | none => []
  | some unit => partsAt true level unit
termination_by structural unit? => unit?

/-- The parts of elements in data. -/
def partsOfData (level : Nat) : Data Value → List Part
  | .elements items => partsOfItems level items
  | .str _ | .int _ | .null => []
termination_by structural data => data

/-- The parts of elements. -/
def partsOfItems (level : Nat) : List Value → List Part
  | [] => []
  | item :: items => partsAt false level item ++ partsOfItems level items
termination_by structural items => items

end

/-- A value and all that is in it. -/
def parts (value : Value) : List Part := value.partsAt false 0

/-- A statement about a value on a level and about all that is in it. -/
def AllParts (P : Part → Prop) (attached : Bool) (level : Nat) (value : Value) : Prop :=
  ∀ part ∈ value.partsAt attached level, P part

/-- The parts of elements are those of one element or another, all at the same level. -/
theorem mem_partsOfItems_iff {level : Nat} {items : List Value} {part : Part} :
    part ∈ partsOfItems level items ↔ ∃ item ∈ items, part ∈ item.partsAt false level := by
  induction items with
  | nil => simp [partsOfItems]
  | cons item items ih => simp [partsOfItems, ih]

/-- The parts of data are those of the elements in it. -/
theorem mem_partsOfData_iff {level : Nat} {data : Data Value} {part : Part} :
    part ∈ partsOfData level data ↔ ∃ item ∈ data.items, part ∈ item.partsAt false level := by
  cases data with
  | elements items => exact mem_partsOfItems_iff
  | str | int | null => simp [partsOfData, Data.items]

/-- The parts of an attached unit are its own, marked as such. -/
theorem mem_partsOfUnit_iff {level : Nat} {unit? : Option Value} {part : Part} :
    part ∈ partsOfUnit level unit? ↔
      ∃ unit, unit? = some unit ∧ part ∈ unit.partsAt true level := by
  cases unit? with
  | none => simp [partsOfUnit]
  | some unit => simp [partsOfUnit]

/-- What is said of all parts is said of the value, of the parts of its attributes unit, and of
the parts of its elements one level deeper.  Statements about all parts go down a value with it. -/
theorem allParts_iff {P : Part → Prop} {attached : Bool} {level : Nat} {value : Value} :
    AllParts P attached level value ↔ P ⟨attached, level, value⟩ ∧
      (∀ unit, value.attributes = some unit → AllParts P true level unit) ∧
      ∀ item ∈ value.data.items, AllParts P false (level + 1) item := by
  obtain ⟨kind, data, attributes⟩ := value
  simp only [AllParts, partsAt, List.mem_cons, List.mem_append, mem_partsOfUnit_iff,
    mem_partsOfData_iff]
  constructor
  · intro h
    refine ⟨h _ (.inl rfl), ?_, ?_⟩
    · intro unit hunit part hpart
      exact h part (.inr (.inl ⟨unit, hunit, hpart⟩))
    · intro item hitem part hpart
      exact h part (.inr (.inr ⟨item, hitem, hpart⟩))
  · rintro ⟨hself, hunits, hitems⟩ part (rfl | ⟨unit, hunit, hpart⟩ | ⟨item, hitem, hpart⟩)
    · exact hself
    · exact hunits unit hunit part hpart
    · exact hitems item hitem part hpart

end Value

/-! ## Values without attributes -/

namespace Value

mutual

/-- The value without its attributes, and so are elements at every level of it. -/
def bare : Value → Value
  | ⟨kind, data, _⟩ => ⟨kind, bareData data, none⟩
termination_by structural value => value

/-- Data of which no element has attributes. -/
def bareData : Data Value → Data Value
  | .elements items => .elements (bareItems items)
  | .str text => .str text
  | .int n => .int n
  | .null => .null
termination_by structural data => data

/-- Elements without attributes. -/
def bareItems : List Value → List Value
  | [] => []
  | item :: items => bare item :: bareItems items
termination_by structural items => items

end

/-- Attributes do not decide the kind of a value. -/
@[simp] theorem kind_bare (value : Value) : value.bare.kind = value.kind := by
  cases value
  rfl

/-- Elements are stripped one by one. -/
@[simp] theorem bareItems_eq_map (items : List Value) : bareItems items = items.map bare := by
  induction items with
  | nil => rfl
  | cons item items ih => rw [bareItems, ih, List.map_cons]

end Value

/-! ## Well-formed values -/

/-- The kinds whose text is a line. -/
def lineKinds : List Kind := [.simpleString, .simpleError, .double, .bigNumber]

/-- The kinds whose text may be any bytes. -/
def blobKinds : List Kind := [.blobString, .blobError, .verbatimString]

/-- The kinds whose elements stand by themselves. -/
def sequenceKinds : List Kind := [.array, .set, .push]

/-- The kinds whose elements stand two by two. -/
def pairKinds : List Kind := [.map, .attributes]

/-- The kinds that come without data.  An attributes unit does so if its length is
negative. -/
def nullKinds : List Kind := [.null, .endOfStream, .attributes]

/-- The data that a value of a kind may have. -/
def Data.Fits (limits : Limits) (kind : Kind) : Data Value → Prop
  | .str text =>
    (kind ∈ blobKinds ∨ kind ∈ lineKinds ∧ lf ∉ text) ∧ text.length ≤ limits.maxBlobLength
  | .int n => kind = .integer ∨ kind = .boolean ∧ (n = 0 ∨ n = 1)
  | .null => kind ∈ nullKinds
  | .elements items => kind ∈ sequenceKinds ∨ kind ∈ pairKinds ∧ 2 ∣ items.length

instance (limits : Limits) (kind : Kind) : (data : Data Value) → Decidable (data.Fits limits kind)
  | .str text => inferInstanceAs (Decidable
      ((kind ∈ blobKinds ∨ kind ∈ lineKinds ∧ lf ∉ text) ∧ text.length ≤ limits.maxBlobLength))
  | .int n => inferInstanceAs (Decidable (kind = .integer ∨ kind = .boolean ∧ (n = 0 ∨ n = 1)))
  | .null => inferInstanceAs (Decidable (kind ∈ nullKinds))
  | .elements items => inferInstanceAs (Decidable
      (kind ∈ sequenceKinds ∨ kind ∈ pairKinds ∧ 2 ∣ items.length))

/-- A part is as it has to be on its level. -/
structure Part.Sound (limits : Limits) (part : Part) : Prop where
  /-- Attributes units are attached to values, and nothing else is. -/
  kind : part.value.kind = .attributes ↔ part.attached = true
  data : part.value.data.Fits limits part.value.kind
  /-- An attributes unit has no attributes. -/
  bare : part.attached = true → part.value.attributes.isNone = true
  /-- The elements of an aggregate, if it had any, would be on an allowed level. -/
  level : part.value.kind.isAggregate = true → part.level + 1 ≤ limits.maxDepth

instance (limits : Limits) (part : Part) : Decidable (part.Sound limits) :=
  decidable_of_iff ((part.value.kind = .attributes ↔ part.attached = true) ∧
      part.value.data.Fits limits part.value.kind ∧
      (part.attached = true → part.value.attributes.isNone = true) ∧
      (part.value.kind.isAggregate = true → part.level + 1 ≤ limits.maxDepth))
    ⟨fun ⟨hkind, hdata, hbare, hlevel⟩ => ⟨hkind, hdata, hbare, hlevel⟩,
      fun ⟨hkind, hdata, hbare, hlevel⟩ => ⟨hkind, hdata, hbare, hlevel⟩⟩

/-- The elements of the part can be counted by a 64-bit number. -/
def Part.Countable (part : Part) : Prop := part.value.data.items.length < 2 ^ 63

instance (part : Part) : Decidable part.Countable :=
  inferInstanceAs (Decidable (part.value.data.items.length < 2 ^ 63))

namespace Value

/-- Every part of the value is as it has to be, where the value is on level zero. -/
def WellFormed (limits : Limits) (value : Value) : Prop := ∀ part ∈ value.parts, part.Sound limits

instance (limits : Limits) (value : Value) : Decidable (value.WellFormed limits) :=
  inferInstanceAs (Decidable (∀ part ∈ value.parts, part.Sound limits))

end Value
end RespCodec
