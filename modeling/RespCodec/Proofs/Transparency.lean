/-
# Attributes units are transparent

Attributes units can be taken out of what is on the wire.  What is left is a unit again,
on the same level and under the same limits, and it is written for the same value without
attributes (`Stripping.unit_bare`).  A decoder therefore reads the same from both, but for
the attributes (`decode_bare`).

`Stripping.unit` says what that means: it relates bytes to what is left of them and to the
value that they are written for.

| rule | bytes | what is left |
| --- | --- | --- |
| `Body.plain` | a body without elements | all of it |
| `Aggregate` | a header, elements, the end of a stream | the header, and what is left of each |
| `Whole` | attributes units, then the body of a value | what is left of the body |

The rule for the whole of a unit also says which attributes the value carries: the last
unit in front of its body, if there is one.  Elements are related by the same rules, so
this holds on every level, and no unit has a say in any value but the one behind it.
-/

import RespCodec.Proofs.Acceptance
import RespCodec.Proofs.Extension
import RespCodec.Proofs.Parts
import RespCodec.Proofs.RoundTrip

namespace RespCodec

namespace Grammar

variable {limits : Limits} {unit? : Option (Language Value)}

/-- A body is written without elements, or it is an aggregate. -/
theorem body_iff {kind : Kind} {bytes : Bytes} {data : Data Value} :
    Body limits unit? kind bytes data ↔ Body limits none kind bytes data ∨
      ∃ c perEntry unit rest, (c, kind, perEntry) ∈ aggregateMarkers ∧ unit? = some unit ∧
        bytes = c.toUInt8 :: rest ∧ Aggregate perEntry unit rest data := by
  constructor
  · intro h
    cases h with
    | line hc h => exact .inl (.line hc h)
    | blob hc h => exact .inl (.blob hc h)
    | noBlob hc h => exact .inl (.noBlob hc h)
    | integer h => exact .inl (.integer h)
    | null => exact .inl .null
    | endOfStream => exact .inl .endOfStream
    | truth => exact .inl .truth
    | falsehood => exact .inl .falsehood
    | aggregate hc hunit h => exact .inr ⟨_, _, _, _, hc, hunit, rfl, h⟩
  · rintro (h | ⟨c, perEntry, unit, rest, hc, hunit, rfl, h⟩)
    · cases h with
      | line hc h => exact .line hc h
      | blob hc h => exact .blob hc h
      | noBlob hc h => exact .noBlob hc h
      | integer h => exact .integer h
      | null => exact .null
      | endOfStream => exact .endOfStream
      | truth => exact .truth
      | falsehood => exact .falsehood
      | aggregate _ hunit => cases hunit
    · exact .aggregate hc hunit h

/-- Data of a body without elements have no attributes in them. -/
theorem bareData_of_body {kind : Kind} {bytes : Bytes} {data : Data Value}
    (h : Body limits none kind bytes data) : Value.bareData data = data := by
  cases h with
  | aggregate _ hunit => cases hunit
  | line | blob | noBlob | integer | null | endOfStream | truth | falsehood => rfl

/-- The value of an attributes unit with the data. -/
def attributesOf (unit : Bytes × Data Value) : Value := .ofData .attributes unit.2

/-- A unit in front of others is what is pending for them. -/
theorem getLast?_cons_or (first : Bytes × Data Value) (front : List (Bytes × Data Value))
    (pending : Option Value) :
    ((first :: front).getLast?.map attributesOf).or pending =
      (front.getLast?.map attributesOf).or (some (attributesOf first)) := by
  rw [List.getLast?_cons]
  cases front.getLast? <;> rfl

/-- Attributes units, each with its data, and the body of a value.  The value carries the
last of them, and `pending` if there are none. -/
inductive Fronted (limits : Limits) (unit? : Option (Language Value)) (pending : Option Value) :
    Language Value
  | intro {front : List (Bytes × Data Value)} {kind : Kind} {bytes : Bytes} {data : Data Value}
    (hfront : ∀ unit ∈ front, Body limits unit? .attributes unit.1 unit.2)
    (hbody : Body limits unit? kind bytes data) (hkind : kind ≠ .attributes) :
    Fronted limits unit? pending (front.flatMap (·.1) ++ bytes)
      ⟨Decoder.settledKind kind data, data, (front.getLast?.map attributesOf).or pending⟩

/-- A body alone carries what is pending. -/
theorem Fronted.alone {pending : Option Value} {kind : Kind} {bytes : Bytes} {data : Data Value}
    (h : Body limits unit? kind bytes data) (hkind : kind ≠ .attributes) :
    Fronted limits unit? pending bytes ⟨Decoder.settledKind kind data, data, pending⟩ := by
  have hnone : ∀ unit ∈ ([] : List (Bytes × Data Value)),
      Body limits unit? .attributes unit.1 unit.2 := List.forall_mem_nil _
  exact .intro hnone h hkind

/-- One more unit in front is pending for those behind it. -/
theorem Fronted.cons {pending : Option Value} {bytes rest : Bytes} {data : Data Value}
    {value : Value} (h : Body limits unit? .attributes bytes data)
    (hrest : Fronted limits unit? (some (.ofData .attributes data)) rest value) :
    Fronted limits unit? pending (bytes ++ rest) value := by
  obtain ⟨hfront, hbody, hkind⟩ := hrest
  rename_i front kind tail content
  have hall : ∀ unit ∈ (bytes, data) :: front, Body limits unit? .attributes unit.1 unit.2 :=
    List.forall_mem_cons.2 ⟨h, hfront⟩
  have hwhole : Fronted limits unit? pending _ _ := .intro hall hbody hkind
  rwa [getLast?_cons_or, List.flatMap_cons, List.append_assoc] at hwhole

/-- Of the attributes units in front of a body, the last is kept.  By induction on the rules in
one direction, and on the units in front in the other. -/
theorem behind_iff_fronted {pending : Option Value} {whole : Bytes} {value : Value} :
    Behind limits unit? pending whole value ↔ Fronted limits unit? pending whole value := by
  constructor
  · intro h
    induction h with
    | value h hkind hdata =>
      rw [← Decoder.settledKind_of_ne_null hdata]
      exact .alone h hkind
    | null h hkind hend =>
      rw [← Decoder.settledKind_null hend]
      exact .alone h hkind
    | attributes h _ ih => exact ih.cons h
  · rintro ⟨hfront, hbody, hkind⟩
    rename_i front kind bytes data
    -- from the first unit, as each becomes the pending one in turn
    induction front generalizing pending with
    | nil => exact Decoder.behind_iff.2 (.inl ⟨kind, data, hbody, hkind, rfl⟩)
    | cons first front ih =>
      obtain ⟨hfirst, hothers⟩ := List.forall_mem_cons.1 hfront
      rw [getLast?_cons_or, List.flatMap_cons, List.append_assoc]
      exact .attributes hfirst (ih hothers)

end Grammar

/-- Bytes, what is left of them without attributes units, and results that the bytes are
written for. -/
abbrev Stripping (α : Type) := Bytes → Bytes → α → Prop

namespace Stripping

open Grammar (Number attributesOf)

/-- The bytes with their results, whatever is left. -/
def language {α : Type} (stripping : Stripping α) : Language α := fun bytes result =>
  ∃ bare, stripping bytes bare result

/-- Units one after another. -/
inductive Units (unit : Stripping Value) : Stripping (List Value)
  | nil : Units unit [] [] []
  | cons {bytes bare rest bareRest : Bytes} {value : Value} {values : List Value}
    (hbytes : unit bytes bare value) (hrest : Units unit rest bareRest values) :
    Units unit (bytes ++ rest) (bare ++ bareRest) (value :: values)

/-- What follows the marker of an aggregate: attributes units are taken out of its
elements, and from before the end of a stream. -/
inductive Aggregate (perEntry : Nat) (unit : Stripping Value) : Stripping (Data Value)
  | absent {head : Bytes} {n : Int} (hhead : Number head n) (hn : n < 0) :
    Aggregate perEntry unit head head .null
  | bounded {head bytes bare : Bytes} {count : Nat} {items : List Value}
    (hhead : Number head count) (hbytes : Units unit bytes bare items)
    (hcount : items.length = count * perEntry) :
    Aggregate perEntry unit (head ++ bytes) (head ++ bare) (.elements items)
  | streamed {bytes bare last bareLast : Bytes} {items : List Value} {final : Value}
    (hbytes : Units unit bytes bare items) (hitems : ∀ item ∈ items, item.kind ≠ .endOfStream)
    (hcount : perEntry ∣ items.length) (hlast : unit last bareLast final)
    (hfinal : final.kind = .endOfStream) :
    Aggregate perEntry unit ('?'.toUInt8 :: crlf ++ bytes ++ last)
      ('?'.toUInt8 :: crlf ++ bare ++ bareLast) (.elements items)

/-- A marker and what belongs to it.  Nothing is taken out of a body that is no aggregate. -/
inductive Body (limits : Limits) (unit? : Option (Stripping Value)) : Kind → Stripping (Data Value)
  | plain {kind : Kind} {bytes : Bytes} {data : Data Value}
    (h : Grammar.Body limits none kind bytes data) : Body limits unit? kind bytes bytes data
  | aggregate {c : Char} {kind : Kind} {perEntry : Nat} {unit : Stripping Value}
    {bytes bare : Bytes} {data : Data Value} (hc : (c, kind, perEntry) ∈ Grammar.aggregateMarkers)
    (hunit : unit? = some unit) (h : Aggregate perEntry unit bytes bare data) :
    Body limits unit? kind (c.toUInt8 :: bytes) (c.toUInt8 :: bare) data

/-- Attributes units, each with its data, and the body of a value.  The units are taken out,
and the value carries the last of them, if there is one. -/
inductive Whole (limits : Limits) (unit? : Option (Stripping Value)) : Stripping Value
  | intro {front : List (Bytes × Data Value)} {kind : Kind} {bytes bare : Bytes}
    {data : Data Value}
    (hfront : ∀ unit ∈ front,
      Grammar.Body limits (unit?.map language) .attributes unit.1 unit.2)
    (hbody : Body limits unit? kind bytes bare data) (hkind : kind ≠ .attributes) :
    Whole limits unit? (front.flatMap (·.1) ++ bytes) bare
      ⟨Decoder.settledKind kind data, data, front.getLast?.map attributesOf⟩

/-- A unit in which aggregates nest at most `levels` deep. -/
def unit (limits : Limits) : (levels : Nat) → Stripping Value
  | 0 => Whole limits none
  | levels + 1 => Whole limits (some (unit limits levels))

variable {limits : Limits} {unit? : Option (Stripping Value)}

/-! ## Every unit can be stripped -/

/-- Without regard to what they are stripped to, units are those of the grammar. -/
theorem language_units (unit : Stripping Value) :
    language (Units unit) = Grammar.Units (language unit) := by
  funext bytes values
  apply propext
  constructor
  · rintro ⟨bare, h⟩
    induction h with
    | nil => exact .nil
    | cons hbytes _ ih => exact .cons ⟨_, hbytes⟩ ih
  · intro h
    induction h with
    | nil => exact ⟨[], .nil⟩
    | cons hbytes _ ih =>
      obtain ⟨bare, hbytes⟩ := hbytes
      obtain ⟨bareRest, hrest⟩ := ih
      exact ⟨bare ++ bareRest, .cons hbytes hrest⟩

/-- So are aggregates: stripping asks nothing of the bytes that it starts from. -/
theorem language_aggregate (perEntry : Nat) (unit : Stripping Value) :
    language (Aggregate perEntry unit) = Grammar.Aggregate perEntry (language unit) := by
  have hunits (bytes : Bytes) (items : List Value) :
      (∃ bare, Units unit bytes bare items) ↔ Grammar.Units (language unit) bytes items :=
    iff_of_eq (congrFun (congrFun (language_units unit) bytes) items)
  funext bytes data
  apply propext
  constructor
  · rintro ⟨bare, h⟩
    cases h with
    | absent hhead hn => exact .absent hhead hn
    | bounded hhead hbytes hcount => exact .bounded hhead ((hunits _ _).1 ⟨_, hbytes⟩) hcount
    | streamed hbytes hitems hcount hlast hfinal =>
      exact .streamed ((hunits _ _).1 ⟨_, hbytes⟩) hitems hcount ⟨_, hlast⟩ hfinal
  · intro h
    cases h with
    | absent hhead hn => exact ⟨_, .absent hhead hn⟩
    | bounded hhead hbytes hcount =>
      obtain ⟨bare, hbytes⟩ := (hunits _ _).2 hbytes
      exact ⟨_, .bounded hhead hbytes hcount⟩
    | streamed hbytes hitems hcount hlast hfinal =>
      obtain ⟨bare, hbytes⟩ := (hunits _ _).2 hbytes
      -- the unit that ends the stream is stripped as well
      obtain ⟨bareLast, hlast⟩ := hlast
      exact ⟨_, .streamed hbytes hitems hcount hlast hfinal⟩

/-- So are bodies, each rule of the one being a rule of the other. -/
theorem language_body (limits : Limits) (unit? : Option (Stripping Value)) (kind : Kind) :
    language (Body limits unit? kind) = Grammar.Body limits (unit?.map language) kind := by
  funext bytes data
  apply propext
  rw [Grammar.body_iff]
  constructor
  · rintro ⟨bare, h⟩
    cases h with
    | plain h => exact .inl h
    | aggregate hc hunit h =>
      subst hunit
      refine .inr ⟨_, _, _, _, hc, rfl, rfl, ?_⟩
      rw [← language_aggregate]
      exact ⟨_, h⟩
  · rintro (h | ⟨c, perEntry, unit, rest, hc, hunit, rfl, h⟩)
    · exact ⟨bytes, .plain h⟩
    · obtain ⟨stripping, hstripping, rfl⟩ := Option.map_eq_some_iff.1 hunit
      rw [← language_aggregate] at h
      obtain ⟨bare, h⟩ := h
      exact ⟨_, .aggregate hc hstripping h⟩

/-- So are whole units, attributes in front of them included. -/
theorem language_whole (limits : Limits) (unit? : Option (Stripping Value)) :
    language (Whole limits unit?) = Grammar.Behind limits (unit?.map language) none := by
  have hbodies (kind : Kind) (bytes : Bytes) (data : Data Value) :
      (∃ bare, Body limits unit? kind bytes bare data) ↔
        Grammar.Body limits (unit?.map language) kind bytes data :=
    iff_of_eq (congrFun (congrFun (language_body limits unit? kind) bytes) data)
  funext bytes value
  apply propext
  rw [Grammar.behind_iff_fronted]
  constructor
  · rintro ⟨bare, h⟩
    obtain ⟨hfront, hbody, hkind⟩ := h
    have hwhole : Grammar.Fronted limits (unit?.map language) none _ _ :=
      .intro hfront ((hbodies _ _ _).1 ⟨_, hbody⟩) hkind
    rwa [Option.or_none] at hwhole
  · rintro ⟨hfront, hbody, hkind⟩
    obtain ⟨bare, hbody⟩ := (hbodies _ _ _).2 hbody
    rw [Option.or_none]
    exact ⟨bare, .intro hfront hbody hkind⟩

/-- Every unit of the grammar can be stripped, and nothing else can. -/
theorem language_unit (limits : Limits) (levels : Nat) :
    language (unit limits levels) = Grammar.unit limits levels := by
  induction levels with
  | zero => exact language_whole limits none
  | succ levels ih =>
    rw [Grammar.unit, ← ih]
    exact language_whole limits (some (unit limits levels))

/-! ## What is left of a unit is a unit -/

/-- What is left is written for values without attributes, and there is nothing more to
take out of it. -/
def Stable (unit : Stripping Value) : Prop :=
  ∀ bytes bare value, unit bytes bare value → unit bare bare value.bare

/-- Stripped bytes are units of their own, which are stripped to themselves. -/
theorem units_bare {unit : Stripping Value} (hunit : Stable unit) {bytes bare : Bytes}
    {values : List Value} (h : Units unit bytes bare values) :
    Units unit bare bare (values.map .bare) := by
  induction h with
  | nil => exact .nil
  | cons hbytes _ ih => exact .cons (hunit _ _ _ hbytes) ih

/-- A stripped aggregate has the header and the end that it had, so it is an aggregate still. -/
theorem aggregate_bare {perEntry : Nat} {unit : Stripping Value} (hunit : Stable unit)
    {bytes bare : Bytes} {data : Data Value} (h : Aggregate perEntry unit bytes bare data) :
    Aggregate perEntry unit bare bare (Value.bareData data) := by
  cases h with
  | absent hhead hn => exact .absent hhead hn
  | bounded hhead hbytes hcount =>
    rw [Value.bareData, Value.bareItems_eq_map]
    exact .bounded hhead (units_bare hunit hbytes) (by rwa [List.length_map])
  | streamed hbytes hitems hcount hlast hfinal =>
    rw [Value.bareData, Value.bareItems_eq_map]
    -- stripping keeps the kind of a value, so the stream ends where it did
    refine .streamed (units_bare hunit hbytes) ?_ (by rwa [List.length_map]) (hunit _ _ _ hlast) ?_
    · intro item hitem
      obtain ⟨whole, hwhole, rfl⟩ := List.mem_map.1 hitem
      rw [Value.kind_bare]
      exact hitems whole hwhole
    · rwa [Value.kind_bare]

/-- A stripped body is a body with its own marker. -/
theorem body_bare (hunit : ∀ unit, unit? = some unit → Stable unit) {kind : Kind}
    {bytes bare : Bytes} {data : Data Value} (h : Body limits unit? kind bytes bare data) :
    Body limits unit? kind bare bare (Value.bareData data) := by
  cases h with
  | plain h =>
    rw [Grammar.bareData_of_body h]
    exact .plain h
  | aggregate hc hsome h => exact .aggregate hc hsome (aggregate_bare (hunit _ hsome) h)

/-- Taking attributes off data does not make a null of it. -/
theorem settledKind_bareData (kind : Kind) (data : Data Value) :
    Decoder.settledKind kind (Value.bareData data) = Decoder.settledKind kind data := by
  cases data <;> rfl

/-- A stripped unit has no attributes in front of it, and nothing is left to strip. -/
theorem whole_bare (hunit : ∀ unit, unit? = some unit → Stable unit) :
    Stable (Whole limits unit?) := by
  intro bytes bare value h
  obtain ⟨hfront, hbody, hkind⟩ := h
  have hnone : ∀ unit ∈ ([] : List (Bytes × Data Value)),
      Grammar.Body limits (unit?.map language) .attributes unit.1 unit.2 := List.forall_mem_nil _
  have hwhole := Whole.intro hnone (body_bare hunit hbody) hkind
  rwa [settledKind_bareData] at hwhole

/-- What is left of a unit is a unit for the value without attributes.  By induction on the
levels, as elements are stripped as units with a level less. -/
theorem unit_bare (limits : Limits) (levels : Nat) : Stable (unit limits levels) := by
  induction levels with
  | zero => exact whole_bare fun unit hunit => absurd hunit (Option.some_ne_none unit).symm
  | succ levels ih =>
    refine whole_bare fun unit hunit => ?_
    obtain rfl := Option.some.inj hunit
    exact ih

/-- Bytes are a unit of the grammar exactly if they can be stripped. -/
theorem exists_unit_iff {levels : Nat} {bytes : Bytes} {value : Value} :
    (∃ bare, unit limits levels bytes bare value) ↔ Grammar.unit limits levels bytes value :=
  iff_of_eq (congrFun (congrFun (language_unit limits levels) bytes) value)

/-- Bytes that can be stripped are decoded as the value that they are written for. -/
theorem decode_of_unit {head bare : Bytes} {value : Value}
    (h : unit limits limits.maxDepth head bare value) (rest : Bytes) :
    decode limits (head ++ rest) = .ok value rest :=
  decode_eq_ok_iff_unit.2 ⟨head, exists_unit_iff.1 ⟨bare, h⟩, rfl⟩

/-- What is left of bytes that can be stripped is decoded, to the last byte, as the value
without attributes. -/
theorem decode_bare_of_unit {head bare : Bytes} {value : Value}
    (h : unit limits limits.maxDepth head bare value) : decode limits bare = .ok value.bare [] := by
  have hbare := decode_of_unit (unit_bare limits _ _ _ _ h) []
  rwa [List.append_nil] at hbare

end Stripping

/-- A call that stops where a value begins has no say in how the value is read. -/
theorem readings_two {limits : Limits} {before head rest : Bytes} {value : Value}
    (h : decode limits (head ++ rest) = .ok value rest)
    (hbefore : stateAfter (decode limits (before ++ (head ++ rest))) = head ++ rest) :
    readings limits 2 (before ++ (head ++ rest)) =
      ([⟨outcome (decode limits (before ++ (head ++ rest))), before.length⟩,
        ⟨.ok value, head.length⟩], rest) := by
  have hlength (front back : Bytes) :
      ByteSource.size (front ++ back) - ByteSource.size back = front.length := by
    show (front ++ back).length - back.length = front.length
    rw [List.length_append, Nat.add_sub_cancel]
  rw [readings, hbefore, readings_succ_of_ok h, hlength, hlength]
  rfl

/-- Transparency: **the bytes that a value is decoded from can be stripped of attributes
units, and what is left is decoded, to the last byte, as the same value without
attributes.**  Each value carries the last attributes unit in front of it and no other one,
on every level, and a call has no say in what the next one reads. -/
theorem decode_bare {limits : Limits} {input rest : Bytes} {value : Value}
    (h : decode limits input = .ok value rest) :
    ∃ head, input = head ++ rest ∧
      (∃ bare, Stripping.unit limits limits.maxDepth head bare value) ∧
      (∀ bare other, Stripping.unit limits limits.maxDepth head bare other →
        other = value ∧ decode limits bare = .ok value.bare [] ∧
          Stripping.unit limits limits.maxDepth bare bare value.bare) ∧
      ∀ before, stateAfter (decode limits (before ++ input)) = input →
        readings limits 2 (before ++ input) =
          ([⟨outcome (decode limits (before ++ input)), before.length⟩,
            ⟨.ok value, head.length⟩], rest) := by
  obtain ⟨head, hhead, rfl⟩ := decode_eq_ok_iff_unit.1 h
  refine ⟨head, rfl, Stripping.exists_unit_iff.2 hhead, ?_, fun before => readings_two h⟩
  intro bare other hother
  -- the stripped bytes belong to a unit, which is decoded as one value only
  obtain ⟨rfl, -⟩ := EStateM.Result.ok.inj ((Stripping.decode_of_unit hother rest).symm.trans h)
  exact ⟨rfl, Stripping.decode_bare_of_unit hother, Stripping.unit_bare limits _ _ _ _ hother⟩

/-- An attributes unit without entries, and one of negative length. -/
def idleUnits : List (Bytes × Data Value) :=
  [(ascii "|0\r\n".toList, .elements []), (ascii "|-1\r\n".toList, .null)]

/-- Each of the two is an attributes unit of the grammar, at any level. -/
theorem body_idleUnits {limits : Limits} {unit : Language Value} :
    ∀ idle ∈ idleUnits, Grammar.Body limits (some unit) .attributes idle.1 idle.2 := by
  have hmarker : ('|', Kind.attributes, 2) ∈ Grammar.aggregateMarkers := by decide
  have hzero : Grammar.Number _ (0 : Nat) := number_digits (by decide)
  have hone : Grammar.Number _ (-(1 : Nat)) := .negative (digits_digits 1) (by decide)
  rw [idleUnits, List.forall_mem_cons, List.forall_mem_singleton]
  exact ⟨.aggregate hmarker rfl (.bounded hzero .nil rfl),
    .aggregate hmarker rfl (.absent hone (by decide))⟩

/-- A stream with attributes units in front of it, of its element and of its end. -/
def adorned : Bytes :=
  ascii "|0\r\n|-1\r\n*?\r\n|0\r\n|-1\r\n+b\r\n|0\r\n|-1\r\n.\r\n".toList

/-- What `adorned` is written for. -/
def adornedValue : Value :=
  let unit := Value.ofData .attributes .null
  (Value.array [(Value.simpleString (ascii ['b'])).withAttributes unit]).withAttributes unit

/-- Six attributes units are taken out of `adorned`. -/
theorem stripping_adorned :
    Stripping.unit {} 128 adorned (ascii "*?\r\n+b\r\n.\r\n".toList) adornedValue := by
  have hline : Grammar.Line 536870912 (ascii ['b'] ++ crlf) (ascii ['b']) :=
    .intro (by decide) (by decide)
  have hplus : ('+', Kind.simpleString) ∈ Grammar.lineMarkers := by decide
  have hstar : ('*', Kind.array, 1) ∈ Grammar.aggregateMarkers := by decide
  have hitem : Stripping.unit {} 127 _ _ _ :=
    .intro body_idleUnits (.plain (.line hplus hline)) (by decide)
  have hlast : Stripping.unit {} 127 _ _ _ :=
    .intro body_idleUnits (.plain .endOfStream) (by decide)
  have hitems : Stripping.Aggregate 1 (Stripping.unit {} 127) _ _ _ :=
    .streamed (.cons hitem .nil) (List.forall_mem_singleton.2 (by decide)) (by decide) hlast rfl
  exact .intro body_idleUnits (.aggregate hstar rfl hitems) (by decide)

/-- What is left of `adorned` is decoded as a stream without attributes. -/
theorem decode_adorned :
    decode {} adorned = .ok adornedValue [] ∧
      decode {} (ascii "*?\r\n+b\r\n.\r\n".toList) =
        .ok (.array [.simpleString (ascii ['b'])]) [] := by
  have hdecode : decode {} adorned = .ok adornedValue [] := by rfl
  obtain ⟨head, happend, -, hall, -⟩ := decode_bare hdecode
  obtain rfl : adorned = head := by rwa [List.append_nil] at happend
  obtain ⟨-, hbare, -⟩ := hall _ _ stripping_adorned
  exact ⟨hdecode, hbare⟩

end RespCodec
