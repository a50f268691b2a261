/-
# Nulls and the kinds that they have

Null data say that there is nothing, and a reader goes by the kind to see what that is: a
null, or the end of a stream.  A negative length is an older way to write a null, and it may
stand behind the marker of any blob or aggregate:

| marker | a negative length is decoded as |
| --- | --- |
| `$` `!` `=` `*` `~` `>` `%` | a null |
| `\|` | attributes of the value behind it, with null data |

The kind of a value is settled when its body has been read, but an attributes unit is kept
as it is for the value behind it.  So the only null data of another kind are those of an
attributes unit (`null_iff_of_sound`), and it is there exactly if the last attributes unit in
front of the value has a negative length (`decodeWithin_attributes`).
-/

import RespCodec.Proofs.Nesting
import RespCodec.Proofs.WellFormed

namespace RespCodec

open Grammar

variable {limits : Limits} {levels : Nat} {kind : Kind}

/-- An attributes unit that was written with a negative length. -/
def Value.voidAttributes : Value := .ofData .attributes .null

/-! ## Kinds of parts -/

/-- Nothing but null data fit a null or an end of stream. -/
theorem eq_null_of_fits {data : Data Value} (hkind : kind = .null ∨ kind = .endOfStream)
    (h : data.Fits limits kind) : data = .null := by
  cases data with
  | null => rfl
  | str text =>
    obtain ⟨hblob | ⟨hline, -⟩, -⟩ := h
    · rcases hkind with rfl | rfl <;> exact absurd hblob (by decide)
    · rcases hkind with rfl | rfl <;> exact absurd hline (by decide)
  | int n =>
    rcases h with rfl | ⟨rfl, -⟩
    · exact absurd hkind (by decide)
    · exact absurd hkind (by decide)
  | elements items =>
    rcases h with hsequence | ⟨hpair, -⟩
    · rcases hkind with rfl | rfl <;> exact absurd hsequence (by decide)
    · rcases hkind with rfl | rfl <;> exact absurd hpair (by decide)

/-- A part as it has to be holds null data if its kind says so, or if it is an attributes
unit of negative length. -/
theorem null_iff_of_sound {part : Part} (h : part.Sound limits) :
    part.value.data = .null ↔ part.value.kind = .null ∨ part.value.kind = .endOfStream ∨
      part.value = .voidAttributes := by
  constructor
  · intro hnull
    have hfits := h.data
    rw [hnull] at hfits
    rcases mem_nullKinds_iff.1 hfits with hkind | hkind | hkind
    · exact .inl hkind
    · exact .inr (.inl hkind)
    -- a kept attributes unit has no attributes itself, so kind and data make up all of it
    · have hbare : part.value.attributes = none :=
        Option.isNone_iff_eq_none.1 (h.bare (h.kind.1 hkind))
      refine .inr (.inr ?_)
      rw [← part.value.eta, hkind, hnull, hbare]
      rfl
  · rintro (hkind | hkind | hvoid)
    · exact eq_null_of_fits (.inl hkind) h.data
    · exact eq_null_of_fits (.inr hkind) h.data
    · rw [hvoid]
      rfl

/-- The parts of a decoded value are as they have to be. -/
theorem sound_of_decode {input rest : Bytes} {value : Value}
    (h : decode limits input = .ok value rest) {part : Part} (hpart : part ∈ value.parts) :
    part.Sound limits := by
  obtain ⟨head, hhead, -⟩ := decode_eq_ok_iff_unit.1 h
  exact allParts_of_unit (Nat.zero_add limits.maxDepth) hhead part hpart

/-! ## Negative lengths -/

/-- Units of the kind have a length, and are allowed where `levels` levels are left. -/
def Kind.HasLength (levels : Nat) (kind : Kind) : Prop :=
  kind.form = .blob ∨ kind.isAggregate = true ∧ 0 < levels

/-- A negative length is allowed wherever a length is. -/
theorem body_negative (hkind : kind.HasLength levels) {head : Bytes} {n : Int}
    (hhead : Number head n) (hn : n < 0) :
    Body limits (elementLanguage? limits levels) kind (kind.marker :: head) .null := by
  rcases hkind with hform | ⟨haggregate, hlevels⟩
  · exact .noBlob (Decoder.mem_blobMarkers_iff.2 ⟨rfl, hform⟩) (.absent hhead hn)
  · obtain ⟨perEntry, hform⟩ := Decoder.isAggregate_iff.1 haggregate
    obtain ⟨left, rfl⟩ := Nat.exists_eq_add_one_of_ne_zero (Nat.ne_of_gt hlevels)
    exact .aggregate (Decoder.mem_aggregateMarkers_iff.2 ⟨rfl, hform⟩) rfl (.absent hhead hn)

/-- Where there is a length, null data are written with a negative one.  One case for each rule:
those without a length are for other kinds, or give other data. -/
theorem exists_negative_of_body (hkind : kind.HasLength levels) {unit? : Option (Language Value)}
    {whole : Bytes} (h : Body limits unit? kind whole .null) :
    ∃ head n, whole = kind.marker :: head ∧ Number head n ∧ n < 0 := by
  generalize hdata : Data.null = data at h
  cases h with
  | noBlob hc h =>
    obtain ⟨rfl, -⟩ := Decoder.mem_blobMarkers_iff.1 hc
    cases h with
    | absent hhead hn => exact ⟨_, _, rfl, hhead, hn⟩
  | aggregate hc _ h =>
    obtain ⟨rfl, -⟩ := Decoder.mem_aggregateMarkers_iff.1 hc
    cases h with
    | absent hhead hn => exact ⟨_, _, rfl, hhead, hn⟩
    | bounded | streamed => cases hdata
  | null | endOfStream =>
    rcases hkind with hform | ⟨haggregate, -⟩
    · cases hform
    · cases haggregate
  | line | blob | integer | truth | falsehood => cases hdata

/-- Where there is a length, data are null exactly if it is negative. -/
theorem decodeBody_eq_null_iff (hkind : kind.HasLength levels) {input rest : Bytes} :
    decodeBody limits levels kind input = .ok .null rest ↔
      ∃ head n, Number head n ∧ n < 0 ∧ input = head ++ rest := by
  rw [decodeBody_eq_ok_iff]
  constructor
  · rintro ⟨bytes, hbody, rfl⟩
    obtain ⟨head, n, hwhole, hhead, hn⟩ := exists_negative_of_body hkind hbody
    obtain rfl := (List.cons.inj hwhole).2
    exact ⟨bytes, n, hhead, hn, rfl⟩
  · rintro ⟨head, n, hhead, hn, rfl⟩
    exact ⟨head, body_negative hkind hhead hn, rfl⟩

/-- Null data behind a length make a value a null. -/
theorem decodeWithin_of_null (hkind : kind.HasLength levels) (hattributes : kind ≠ .attributes)
    {input rest : Bytes} (h : decodeBody limits levels kind input = .ok .null rest) :
    decodeWithin limits levels (kind.marker :: input) = .ok .null rest := by
  have hend : kind ≠ .endOfStream := by
    rintro rfl
    rcases hkind with hform | ⟨haggregate, -⟩
    · cases hform
    · cases haggregate
  rw [decodeWithin_marker hattributes, h]
  dsimp only
  rw [Decoder.settledKind_null hend]
  rfl

/-! ## Attributes units of negative length -/

/-- The value behind one more attributes unit.  One that stands nearer to it is kept. -/
def Value.behind (value unit : Value) : Value :=
  { value with attributes := value.attributes.or (some unit) }

/-- Of two attributes units the nearer is kept. -/
theorem Value.behind_behind (value near far : Value) :
    (value.behind near).behind far = value.behind near := by
  obtain ⟨kind, data, attributes⟩ := value
  cases attributes <;> rfl

/-- A unit that is pending goes to the value that is read, and changes nothing else.  By
induction on the rounds, as it is dropped where a further unit comes. -/
theorem Decoder.run_unitBehind_some {bodyRounds rounds : Nat}
    {element? : Option (Thunk (Decoder Value))} (unit : Value) (input : Bytes) :
    (unitBehind limits bodyRounds element? rounds (some unit)).run input =
      match (unitBehind limits bodyRounds element? rounds none).run input with
      | .ok value rest => .ok (value.behind unit) rest
      | .error e rest => .error e rest := by
  induction rounds generalizing unit input with
  | zero => rfl
  | succ rounds ih =>
    cases input with
    | nil => rfl
    | cons b input =>
      cases hb : Kind.ofMarker? b with
      | none =>
        simp only [unitBehind, bind_eq, run_bind, run_nextByte_cons, hb]
        rfl
      | some kind =>
        obtain rfl := Kind.marker_of_ofMarker? hb
        rw [run_unitBehind_marker, run_unitBehind_marker]
        cases (body limits bodyRounds element? kind).run input with
        | error e rest => rfl
        | ok data rest =>
          dsimp only
          split
          -- a further unit takes the place of the pending one, so only the nearer is left
          · rw [ih]
            cases (unitBehind limits bodyRounds element? rounds none).run rest with
            | error e rest => rfl
            | ok value rest =>
              dsimp only
              rw [Value.behind_behind]
          · rfl

/-- An attributes unit goes to the value behind it, unless another one stands between them. -/
theorem decodeWithin_attributes {input rest : Bytes} {data : Data Value}
    (h : decodeBody limits levels .attributes input = .ok data rest) :
    decodeWithin limits levels (Kind.attributes.marker :: input) =
      match decodeWithin limits levels rest with
      | .ok value left => .ok (value.behind (.ofData .attributes data)) left
      | .error e left => .error e left := by
  have hrounds := Nat.lt_succ_self input.length
  -- the body took some of the bytes, so the rounds are enough for the value behind it
  have hrest : rest.length < input.length + 1 := by
    obtain ⟨bytes, -, rfl⟩ := decodeBody_eq_ok_iff.1 h
    rw [List.length_append]
    omega
  rw [← Decoder.run_unit_eq (Nat.succ_lt_succ hrounds), Decoder.unit_eq,
    Decoder.run_unitBehind_marker, Decoder.run_body_eq (Nat.lt_succ_of_lt hrounds), h]
  dsimp only
  rw [if_pos rfl, Decoder.run_unitBehind_some,
    Decoder.run_unitBehind_eq (Nat.lt_succ_of_lt hrest) hrest]

/-- Nulls: **a value with null data is a null or the end of a stream, and where there is a
length, data are null exactly if it is negative.**  Attributes units alone are left out: one of
negative length is attached to the value behind it with null data and the kind that it had,
unless another unit stands nearer.  That is the only way for a decoded value to have null data
of another kind in it, so wherever no such unit was kept, null data and the two kinds go
together in every part of the value. -/
theorem decode_nulls (limits : Limits) :
    (∀ (input rest : Bytes) (value : Value), decode limits input = .ok value rest →
        ∀ part ∈ value.parts, (part.value.kind = .attributes ↔ part.attached = true) ∧
          (part.value.data = .null ↔ part.value.kind = .null ∨ part.value.kind = .endOfStream ∨
            part.value = .voidAttributes)) ∧
      ∀ (levels : Nat) (kind : Kind) (input rest : Bytes), kind.HasLength levels →
        (decodeBody limits levels kind input = .ok .null rest ↔
          ∃ head n, Number head n ∧ n < 0 ∧ input = head ++ rest) ∧
        (decodeBody limits levels kind input = .ok .null rest → kind ≠ .attributes →
          decodeWithin limits levels (kind.marker :: input) = .ok .null rest) ∧
        (decodeBody limits levels kind input = .ok .null rest → kind = .attributes →
          decodeWithin limits levels (kind.marker :: input) =
            match decodeWithin limits levels rest with
            | .ok value left => .ok (value.behind .voidAttributes) left
            | .error e left => .error e left) := by
  refine ⟨?_, ?_⟩
  · intro input rest value h part hpart
    have hsound := sound_of_decode h hpart
    exact ⟨hsound.kind, null_iff_of_sound hsound⟩
  · intro levels kind input rest hkind
    refine ⟨decodeBody_eq_null_iff hkind, ?_, ?_⟩
    · intro h hattributes
      exact decodeWithin_of_null hkind hattributes h
    · rintro h rfl
      exact decodeWithin_attributes h

/-- A null and a map of negative length in an array.  In front of the map stand two attributes
units, of which the nearer one has entries. -/
def hollow : Bytes := ascii "*2\r\n$-1\r\n|-1\r\n|1\r\n+a\r\n!-7\r\n%-1\r\n".toList

/-- Every null in the value has the kind of one, also the one inside the attributes unit. -/
theorem decode_hollow :
    (∀ part ∈ (Value.array [.null, Value.null.withAttributes
        (.attributesUnit [(.simpleString (ascii ['a']), .null)])]).parts,
      (part.value.data = .null ↔ part.value.kind = .null ∨ part.value.kind = .endOfStream ∨
        part.value = .voidAttributes)) ∧
      decodeWithin {} 0 (ascii "$-1\r\n".toList) = .ok .null [] ∧
      decodeWithin {} 1 (ascii "|-1\r\n%-1\r\n".toList) =
        .ok (Value.null.behind .voidAttributes) [] := by
  have hdecode : decode {} hollow = .ok (Value.array [.null, Value.null.withAttributes
      (.attributesUnit [(.simpleString (ascii ['a']), .null)])]) [] := rfl
  obtain ⟨hparts, hlengths⟩ := decode_nulls {}
  have hblob := hlengths 0 .blobString (ascii "-1\r\n".toList) [] (.inl rfl)
  have hunit := hlengths 1 .attributes (ascii "-1\r\n%-1\r\n".toList)
    (ascii "%-1\r\n".toList) (.inr ⟨rfl, Nat.one_pos⟩)
  refine ⟨fun part hpart => (hparts _ _ _ hdecode part hpart).2, ?_, ?_⟩
  · exact hblob.2.1 rfl (by decide)
  · exact hunit.2.2 rfl rfl

/-- An attributes unit of negative length in front of a line: the value has null data in it,
and the kind of that part is neither of the two. -/
theorem decode_voidAttributes :
    ∃ value part, decode {} (ascii "|-1\r\n+a\r\n".toList) = .ok value [] ∧
      part ∈ value.parts ∧
      ¬(part.value.data = .null ↔
        part.value.kind = .null ∨ part.value.kind = .endOfStream) := by
  refine ⟨(Value.simpleString (ascii ['a'])).withAttributes .voidAttributes,
    ⟨true, 0, .voidAttributes⟩, rfl, .tail _ (.head _), ?_⟩
  intro h
  rcases h.1 rfl with hkind | hkind
  · cases hkind
  · cases hkind

end RespCodec
