/-
# Decoding gives the well-formed values

Which values can come out of a decoder is a question to the grammar: a value comes out
if there are bytes that are a unit written for it.

Every unit is written for a value whose parts are as they have to be
(`allParts_of_unit`).  For the other way round bytes are made up: lines and numbers as
they stand, blobs in fragments of one byte, aggregates by count
(`exists_unit_of_allParts`).  A count is a 64-bit number, so there must not be too many
elements.

Both are inductions on the levels of nesting that are left.  An attributes unit takes no
level itself, so it is dealt with beside the value that it stands in front of.
-/

import RespCodec.Proofs.Parts
import RespCodec.Proofs.RoundTrip

namespace RespCodec

open Grammar

variable {limits : Limits} {unit? : Option (Language Value)} {level : Nat}

/-! ## From units to parts -/

/-- The kinds of aggregates with one element to an entry, and with two. -/
theorem mem_aggregateKinds {c : Char} {kind : Kind} {perEntry : Nat}
    (h : (c, kind, perEntry) ∈ aggregateMarkers) :
    kind ∈ sequenceKinds ∨ kind ∈ pairKinds ∧ perEntry = 2 := by
  have hall : ∀ entry ∈ aggregateMarkers,
      entry.2.1 ∈ sequenceKinds ∨ entry.2.1 ∈ pairKinds ∧ entry.2.2 = 2 := by decide
  exact hall _ h

/-- Data are null in a null, in the end of a stream, and in an attributes unit of negative length. -/
theorem mem_nullKinds_iff {kind : Kind} :
    kind ∈ nullKinds ↔ kind = .null ∨ kind = .endOfStream ∨ kind = .attributes := by
  simp [nullKinds]

/-- Units one after another are written for values that units are written for. -/
theorem exists_unit_of_mem_units {unit : Language Value} {bytes : Bytes} {values : List Value}
    (h : Units unit bytes values) {value : Value} (hmem : value ∈ values) :
    ∃ bytes, unit bytes value := by
  induction h with
  | nil => cases hmem
  | cons hbytes _ ih =>
    rcases List.mem_cons.1 hmem with rfl | hmem
    · exact ⟨_, hbytes⟩
    · exact ih hmem

/-- Elements are written as units, and fill entries. -/
theorem exists_unit_of_mem_aggregate {perEntry : Nat} {unit : Language Value} {bytes : Bytes}
    {data : Data Value} (h : Aggregate perEntry unit bytes data) :
    (data = .null ∨ ∃ items, data = .elements items ∧ perEntry ∣ items.length) ∧
      ∀ item ∈ data.items, ∃ bytes, unit bytes item := by
  cases h with
  | absent => exact ⟨.inl rfl, fun item hitem => absurd hitem List.not_mem_nil⟩
  | bounded hhead hbytes hcount =>
    refine ⟨.inr ⟨_, rfl, ?_⟩, fun item hitem => exists_unit_of_mem_units hbytes hitem⟩
    rw [hcount]
    exact Nat.dvd_mul_left ..
  | streamed hbytes _ hcount =>
    exact ⟨.inr ⟨_, rfl, hcount⟩, fun item hitem => exists_unit_of_mem_units hbytes hitem⟩

/-- The data of a body fit its kind, unless a null is still to be given its own. -/
theorem fits_of_body {kind : Kind} {bytes : Bytes} {data : Data Value}
    (h : Body limits unit? kind bytes data)
    (hnull : data = .null → kind ∈ nullKinds) :
    data.Fits limits kind := by
  cases h with
  | line hc h =>
    obtain ⟨hlf, hlimit⟩ := h
    exact ⟨.inr ⟨List.mem_map_of_mem (f := Prod.snd) hc, hlf⟩, hlimit⟩
  | blob hc h =>
    refine ⟨.inl (List.mem_map_of_mem (f := Prod.snd) hc), ?_⟩
    cases h with
    | bounded _ hlimit => exact hlimit
    | fragmented _ hlimit => exact hlimit
  | integer => exact .inl rfl
  | truth => exact .inr ⟨rfl, .inr rfl⟩
  | falsehood => exact .inr ⟨rfl, .inl rfl⟩
  | noBlob | null | endOfStream => exact hnull rfl
  | aggregate hc _ h =>
    obtain ⟨rfl | ⟨items, rfl, hcount⟩, -⟩ := exists_unit_of_mem_aggregate h
    · exact hnull rfl
    -- a map has entries of two, any other aggregate has no condition on its elements
    · rcases mem_aggregateKinds hc with hkind | ⟨hkind, rfl⟩
      · exact .inl hkind
      · exact .inr ⟨hkind, hcount⟩

/-- Units of the language of elements, if there is one, are written for values whose
parts are as they have to be one level deeper. -/
def ElementsSound (limits : Limits) (level : Nat) (unit? : Option (Language Value)) : Prop :=
  ∀ unit, unit? = some unit → level + 1 ≤ limits.maxDepth ∧
    ∀ bytes item, unit bytes item → item.AllParts (Part.Sound limits) false (level + 1)

/-- So are the parts of elements in a body, and an aggregate is on an allowed level. -/
theorem sound_of_body (helements : ElementsSound limits level unit?) {kind : Kind} {bytes : Bytes}
    {data : Data Value} (h : Body limits unit? kind bytes data) :
    (kind.isAggregate = true → level + 1 ≤ limits.maxDepth) ∧
      ∀ item ∈ data.items, item.AllParts (Part.Sound limits) false (level + 1) := by
  have hnone {kinds : List Kind} (hkind : kind ∈ kinds)
      (hkinds : ∀ kind ∈ kinds, kind.isAggregate = false) : kind.isAggregate ≠ true :=
    Bool.eq_false_iff.1 (hkinds kind hkind)
  cases h with
  | line hc h =>
    have hline : kind ∈ lineKinds := List.mem_map_of_mem (f := Prod.snd) hc
    exact ⟨fun hkind => absurd hkind (hnone hline (by decide)),
      fun item hitem => absurd hitem List.not_mem_nil⟩
  | blob hc h | noBlob hc h =>
    have hblob : kind ∈ blobKinds := List.mem_map_of_mem (f := Prod.snd) hc
    exact ⟨fun hkind => absurd hkind (hnone hblob (by decide)),
      fun item hitem => absurd hitem List.not_mem_nil⟩
  | integer | null | endOfStream | truth | falsehood =>
    exact ⟨nofun, fun item hitem => absurd hitem List.not_mem_nil⟩
  | aggregate hc hunit h =>
    obtain ⟨hlevel, hsound⟩ := helements _ hunit
    -- elements are units of the level below, which is within the limit
    refine ⟨fun _ => hlevel, fun item hitem => ?_⟩
    obtain ⟨bytes, hbytes⟩ := (exists_unit_of_mem_aggregate h).2 item hitem
    exact hsound bytes item hbytes

/-- A unit is written for a value whose parts are as they have to be, if that is so of the
attributes unit in front of it.  By induction on the rules, with the pending unit left open. -/
theorem allParts_of_behind (helements : ElementsSound limits level unit?) {pending : Option Value}
    {bytes : Bytes} {value : Value} (h : Behind limits unit? pending bytes value)
    (hpending : ∀ unit, pending = some unit → unit.AllParts (Part.Sound limits) true level) :
    value.AllParts (Part.Sound limits) false level := by
  induction h with
  | value hbody hkind hdata =>
    obtain ⟨hlevel, hitems⟩ := sound_of_body helements hbody
    refine Value.allParts_iff.2 ⟨⟨?_, ?_, nofun, hlevel⟩, hpending, hitems⟩
    · exact iff_of_false hkind Bool.false_ne_true
    · have hend : Kind.endOfStream ∈ nullKinds := by decide
      exact fits_of_body hbody fun hnull => hdata.resolve_left (fun hne => hne hnull) ▸ hend
  | null hbody =>
    refine Value.allParts_iff.2 ⟨⟨?_, ?_, nofun, nofun⟩, hpending, nofun⟩
    · exact iff_of_false nofun Bool.false_ne_true
    · exact List.mem_cons_self
  | attributes hbody _ ih =>
    obtain ⟨hlevel, hitems⟩ := sound_of_body helements hbody
    refine ih fun unit hunit => ?_
    obtain rfl := Option.some.inj hunit
    refine Value.allParts_iff.2 ⟨⟨iff_of_true rfl rfl, ?_, fun _ => rfl, hlevel⟩, nofun, hitems⟩
    -- the unit keeps its kind even with null data, which is why the kind may have them
    have hattributes : Kind.attributes ∈ nullKinds := by decide
    exact fits_of_body hbody fun _ => hattributes

/-- Units are written for values whose parts are as they have to be.  By induction on the
levels, which together with the level of a part stay the limit. -/
theorem allParts_of_unit {levels : Nat} {bytes : Bytes} {value : Value}
    (hlevels : level + levels = limits.maxDepth) (h : Grammar.unit limits levels bytes value) :
    value.AllParts (Part.Sound limits) false level := by
  induction levels generalizing level bytes value with
  | zero =>
    have helements : ElementsSound limits level none := fun unit hunit => nomatch hunit
    exact allParts_of_behind helements h nofun
  | succ levels ih =>
    refine allParts_of_behind ?_ h nofun
    intro unit hunit
    obtain rfl := Option.some.inj hunit
    exact ⟨by omega, fun bytes item hitem => ih (by omega) hitem⟩

/-! ## From parts to units -/

/-- Every 64-bit number can be written. -/
theorem exists_number (n : Int64) : ∃ bytes, Number bytes n.toInt := by
  have hlower := Int64.le_toInt n
  have hupper := Int64.toInt_lt n
  by_cases hneg : n.toInt < 0
  · have hvalue : n.toInt = -(n.toInt.natAbs : Int) := by omega
    rw [hvalue]
    exact ⟨_, .negative (digits_digits _) (by omega)⟩
  · have hvalue : n.toInt = (n.toInt.natAbs : Int) := by omega
    rw [hvalue]
    exact ⟨_, .plain (digits_digits _) (by omega)⟩

/-- All bytes can be written in fragments of one byte. -/
theorem exists_fragments (payload : Bytes) : ∃ bytes, Fragments bytes payload := by
  induction payload with
  | nil => exact ⟨_, .last (number_digits (by decide))⟩
  | cons b payload ih =>
    obtain ⟨bytes, hbytes⟩ := ih
    have hone : Number _ (1 : Nat) := number_digits (by decide)
    exact ⟨_, .more hone (List.cons_ne_nil b []) hbytes⟩

/-- Values that units are written for have units written for all of them. -/
theorem exists_units {unit : Language Value} {values : List Value}
    (h : ∀ value ∈ values, ∃ bytes, unit bytes value) : ∃ bytes, Units unit bytes values := by
  induction values with
  | nil => exact ⟨[], .nil⟩
  | cons value values ih =>
    obtain ⟨bytes, hbytes⟩ := h value List.mem_cons_self
    obtain ⟨rest, hrest⟩ := ih fun other hother => h other (List.mem_cons_of_mem _ hother)
    exact ⟨bytes ++ rest, .cons hbytes hrest⟩

/-- Elements that fill entries can be written by count. -/
theorem exists_aggregate {perEntry : Nat} {unit : Language Value} {items : List Value}
    (hpos : 0 < perEntry) (hcount : perEntry ∣ items.length) (hlength : items.length < 2 ^ 63)
    (h : ∀ item ∈ items, ∃ bytes, unit bytes item) :
    ∃ bytes, Aggregate perEntry unit bytes (.elements items) := by
  obtain ⟨bytes, hbytes⟩ := exists_units h
  obtain ⟨entries, hentries⟩ := hcount
  have hle : entries ≤ items.length := by
    rw [hentries]
    exact Nat.le_mul_of_pos_left entries hpos
  have hhead : Number _ (entries : Nat) := number_digits (by omega)
  exact ⟨_, .bounded hhead hbytes (by rw [hentries, Nat.mul_comm])⟩

/-- Elements that stand by themselves, or two by two, can be written behind the marker
of their kind. -/
theorem exists_body_elements {unit : Language Value} {kind : Kind} {items : List Value}
    (hkind : kind ∈ sequenceKinds ∨ kind ∈ pairKinds ∧ 2 ∣ items.length)
    (hlength : items.length < 2 ^ 63) (h : ∀ item ∈ items, ∃ bytes, unit bytes item) :
    ∃ bytes, Body limits (some unit) kind bytes (.elements items) := by
  have hsequence : ∀ kind ∈ sequenceKinds, (kind.symbol, kind, 1) ∈ aggregateMarkers := by decide
  have hpair : ∀ kind ∈ pairKinds, (kind.symbol, kind, 2) ∈ aggregateMarkers := by decide
  rcases hkind with hkind | ⟨hkind, hcount⟩
  · obtain ⟨bytes, hbytes⟩ := exists_aggregate Nat.one_pos (Nat.one_dvd _) hlength h
    exact ⟨_, .aggregate (hsequence kind hkind) rfl hbytes⟩
  · obtain ⟨bytes, hbytes⟩ := exists_aggregate Nat.two_pos hcount hlength h
    exact ⟨_, .aggregate (hpair kind hkind) rfl hbytes⟩

/-- Data that fit a kind can be written as a body, if the elements among them can.  One case for
each form of data.  Text is written in fragments or as a line, so its length need not be one
that can be written; elements are written behind their count. -/
theorem exists_body {kind : Kind} {data : Data Value} (hfits : data.Fits limits kind)
    (hlength : data.items.length < 2 ^ 63)
    (helements : kind.isAggregate = true →
      ∃ unit, unit? = some unit ∧ ∀ item ∈ data.items, ∃ bytes, unit bytes item) :
    ∃ bytes, Body limits unit? kind bytes data := by
  cases data with
  | str text =>
    have hblob : ∀ kind ∈ blobKinds, (kind.symbol, kind) ∈ blobMarkers := by decide
    have hline : ∀ kind ∈ lineKinds, (kind.symbol, kind) ∈ lineMarkers := by decide
    -- blobs may hold any bytes, lines no line feed; both keep the limit
    obtain ⟨hkind | ⟨hkind, hlf⟩, hlimit⟩ := hfits
    · obtain ⟨bytes, hbytes⟩ := exists_fragments text
      exact ⟨_, .blob (hblob kind hkind) (.fragmented hbytes hlimit)⟩
    · exact ⟨_, .line (hline kind hkind) (.intro hlf hlimit)⟩
  | int n =>
    rcases hfits with rfl | ⟨rfl, rfl | rfl⟩
    · obtain ⟨bytes, hbytes⟩ := exists_number n
      exact ⟨_, .integer hbytes⟩
    · exact ⟨_, .falsehood⟩
    · exact ⟨_, .truth⟩
  | null =>
    rcases mem_nullKinds_iff.1 hfits with rfl | rfl | rfl
    · exact ⟨_, .null⟩
    · exact ⟨_, .endOfStream⟩
    -- attributes with null data are written with a negative length
    · obtain ⟨unit, rfl, -⟩ := helements rfl
      have hc : ('|', Kind.attributes, 2) ∈ aggregateMarkers := by decide
      have hhead : Number _ (-(1 : Nat)) := .negative (digits_digits 1) (by decide)
      exact ⟨_, .aggregate hc rfl (.absent hhead (by decide))⟩
  | elements items =>
    have haggregate : ∀ kind ∈ sequenceKinds ++ pairKinds, kind.isAggregate = true := by decide
    have hkind : kind ∈ sequenceKinds ++ pairKinds :=
      List.mem_append.2 (hfits.imp_right And.left)
    obtain ⟨unit, rfl, hitems⟩ := helements (haggregate kind hkind)
    exact exists_body_elements hfits hlength hitems

/-- A part that is as it has to be, and has not too many elements. -/
def Part.Writable (limits : Limits) (part : Part) : Prop := part.Sound limits ∧ part.Countable

/-- Where another level is allowed there is a language of elements, and in it every
value whose parts are writable is written. -/
def ElementsWritten (limits : Limits) (level : Nat) (unit? : Option (Language Value)) : Prop :=
  level + 1 ≤ limits.maxDepth → ∃ unit, unit? = some unit ∧ ∀ item : Value,
    item.AllParts (Part.Writable limits) false (level + 1) → ∃ bytes, unit bytes item

/-- A value or an attributes unit with writable parts has a body. -/
theorem exists_body_of_allParts {attached : Bool} {value : Value}
    (h : value.AllParts (Part.Writable limits) attached level)
    (helements : ElementsWritten limits level unit?) :
    ∃ bytes, Body limits unit? value.kind bytes value.data := by
  obtain ⟨⟨hsound, hcountable⟩, -, hitems⟩ := Value.allParts_iff.1 h
  refine exists_body hsound.data hcountable fun hkind => ?_
  obtain ⟨unit, hunit, hwritten⟩ := helements (hsound.level hkind)
  exact ⟨unit, hunit, fun item hitem => hwritten item (hitems item hitem)⟩

/-- Data that fit a kind leave it as it is. -/
theorem settledKind_of_fits {kind : Kind} {data : Data Value} (h : data.Fits limits kind)
    (hkind : kind ≠ .attributes) : Decoder.settledKind kind data = kind := by
  cases data with
  | null =>
    rcases mem_nullKinds_iff.1 h with rfl | rfl | rfl
    · rfl
    · rfl
    · exact absurd rfl hkind
  | str | int | elements => rfl

/-- A value with writable parts is written behind its attributes unit. -/
theorem exists_behind {value : Value} (h : value.AllParts (Part.Writable limits) false level)
    (helements : ElementsWritten limits level unit?) :
    ∃ bytes, Behind limits unit? none bytes value := by
  obtain ⟨⟨hsound, -⟩, hunits, -⟩ := Value.allParts_iff.1 h
  obtain ⟨bytes, hbytes⟩ := exists_body_of_allParts h helements
  have hkind : value.kind ≠ .attributes := fun hkind => nomatch hsound.kind.1 hkind
  -- its kind fits its data, so the body alone gives it back
  have hsettled : value =
      ⟨Decoder.settledKind value.kind value.data, value.data, value.attributes⟩ := by
    rw [settledKind_of_fits hsound.data hkind]
    exact value.eta.symm
  have hvalue : Behind limits unit? value.attributes bytes value :=
    Decoder.behind_iff.2 (.inl ⟨value.kind, value.data, hbytes, hkind, hsettled⟩)
  cases hattributes : value.attributes with
  | none =>
    rw [hattributes] at hvalue
    exact ⟨bytes, hvalue⟩
  | some unit =>
    have hunit := hunits unit hattributes
    obtain ⟨⟨hunitSound, -⟩, -, -⟩ := Value.allParts_iff.1 hunit
    obtain ⟨front, hfront⟩ := exists_body_of_allParts hunit helements
    have hunitKind : unit.kind = .attributes := hunitSound.kind.2 rfl
    have hbare : unit.attributes = none := Option.isNone_iff_eq_none.1 (hunitSound.bare rfl)
    -- a kept unit has no attributes of its own
    have hdata : unit = .ofData .attributes unit.data := by
      conv => lhs; rw [← unit.eta, hunitKind, hbare]
      rfl
    rw [hunitKind] at hfront
    rw [hattributes, hdata] at hvalue
    exact ⟨front ++ bytes, .attributes hfront hvalue⟩

/-- A value with writable parts is written as a unit.  By induction on the levels, as the
elements of a value stand one level deeper. -/
theorem exists_unit_of_allParts {levels : Nat} {value : Value}
    (hlevels : level + levels = limits.maxDepth)
    (h : value.AllParts (Part.Writable limits) false level) :
    ∃ bytes, Grammar.unit limits levels bytes value := by
  induction levels generalizing level value with
  | zero =>
    refine exists_behind h fun hlevel => ?_
    omega
  | succ levels ih =>
    refine exists_behind h fun _ => ⟨_, rfl, fun item hitem => ?_⟩
    exact ih (by omega) hitem

/-- Range: **the values that decoding can give are the well-formed ones,** as long as
no list in them has more elements than can be counted. -/
theorem exists_decode_iff_wellFormed (limits : Limits) {value : Value}
    (hcountable : ∀ part ∈ value.parts, part.Countable) :
    (∃ input rest : Bytes, decode limits input = .ok value rest) ↔ value.WellFormed limits := by
  have hlevels : 0 + limits.maxDepth = limits.maxDepth := Nat.zero_add _
  constructor
  · rintro ⟨input, rest, h⟩
    obtain ⟨head, hhead, -⟩ := decode_eq_ok_iff_unit.1 h
    exact allParts_of_unit hlevels hhead
  · intro h
    obtain ⟨bytes, hbytes⟩ := exists_unit_of_allParts hlevels
      fun part hpart => ⟨h part hpart, hcountable part hpart⟩
    exact ⟨bytes, [], decode_eq_ok_iff_unit.2 ⟨bytes, hbytes, (List.append_nil _).symm⟩⟩

/-- A number with an attributes unit, in a map, in an array. -/
def nested : Value :=
  .array [.map [(.blobString [], (Value.integer 3).withAttributes (.ofData .attributes .null))],
    .ofData .endOfStream .null]

/-- The attributes unit is on the third level, so three levels have to be allowed. -/
theorem exists_decode_nested :
    (∀ part ∈ nested.parts, part.Countable) ∧
      (∃ input rest : Bytes, decode { maxDepth := 3 } input = .ok nested rest) ∧
      ¬ ∃ input rest : Bytes, decode { maxDepth := 2 } input = .ok nested rest := by
  have hcountable : ∀ part ∈ nested.parts, part.Countable := by decide
  refine ⟨hcountable, ?_, ?_⟩
  · exact (exists_decode_iff_wellFormed { maxDepth := 3 } hcountable).2 (by decide)
  · intro h
    have hsound := (exists_decode_iff_wellFormed { maxDepth := 2 } hcountable).1 h
    revert hsound
    decide

end RespCodec
