/-
# Decoding ends, and values weigh no more than their bytes

A decoder is a finite tree, so every run of it ends.  What could still be wrong is that a
loop was cut off because its rounds were used up.  `Decoder.Ends` says that a run does not
end in that way: it ends with a result, with a refusal, or with a read that wants more
bytes than are left.  Decoders in lockstep have no other way to end (`Lockstep.ends`), and
so a unit reader has none, however many elements are announced.

What is read has to be paid for in bytes.  Each part of a value costs three, which is a
marker and a terminator at least, and its text besides:

| part | bytes |
| --- | --- |
| a line | marker, text, `CR LF` |
| a blob | marker, a header, text, `CR LF`; or fragments, with the text in them |
| a number, a null | marker, a header |
| null, end of stream, a truth value | marker, `CR LF` |
| an aggregate | marker, a header, the bytes of its elements |

`weight` adds that up, and no unit is shorter than the weight of its value
(`weight_le_of_unit`).  So every value takes three bytes, and an input has no more values
than a third of its bytes.
-/

import RespCodec.Proofs.Acceptance
import RespCodec.Proofs.Lockstep
import RespCodec.Proofs.Parts

namespace RespCodec

open Grammar

/-! ## Ends of runs -/

namespace Decoder

variable {α : Type} {n m : Nat}

/-- A run on bytes ends with a result, with a refusal, or with a read for which too few bytes
are left.  It does not end where a loop is cut off. -/
inductive Ends : Decoder α → Bytes → Prop
  | done (a : α) (input : Bytes) : Ends (done a) input
  | refuse (violation : Violation) (input : Bytes) : Ends (fail (.violation violation)) input
  | noByte (next : UInt8 → Decoder α) : Ends (byte next) []
  | byte {next : UInt8 → Decoder α} {b : UInt8} {input : Bytes} (h : Ends (next b) input) :
    Ends (byte next) (b :: input)
  | noSpan {wanted : Span} (next : Bytes → Decoder α) {input : Bytes}
    (h : input.length < wanted.extent input) : Ends (span wanted next) input
  | span {wanted : Span} {next : Bytes → Decoder α} {text input : Bytes}
    (hlength : text.length = wanted.extent (text ++ input)) (h : Ends (next text) input) :
    Ends (span wanted next) (text ++ input)

/-- A decoder with a round for each byte is not cut off.  By induction on the reads, as the
bytes stay fewer than what lockstep allows for. -/
theorem Lockstep.ends {d d' : Decoder α} (h : Lockstep n m d d') {input : Bytes}
    (hlength : input.length < n) : d.Ends input := by
  induction h generalizing input with
  | spent => exact absurd hlength (Nat.not_lt_zero _)
  | done h a => exact .done a input
  | refuse violation => exact .refuse violation input
  | byte _ ih =>
    cases input with
    | nil => exact .noByte _
    | cons b input => exact .byte (ih b (Nat.lt_of_succ_lt_succ hlength))
  | span _ ih =>
    rename_i wanted next next' _
    rcases Nat.lt_or_ge input.length (wanted.extent input) with hlt | hge
    · exact .noSpan next hlt
    · have happend := List.take_append_drop (wanted.extent input) input
      rw [← happend]
      refine .span ?_ (ih _ ?_)
      · rw [happend, List.length_take_of_le hge]
      · rw [List.length_drop]
        omega

end Decoder

/-! ## What values weigh -/

/-- The text in data. -/
def Data.text {ν : Type} : Data ν → Bytes
  | .str text => text
  | _ => []

/-- Three bytes for each part, and those of its text. -/
def weight (parts : List Part) : Nat :=
  3 * parts.length + (parts.flatMap fun part => part.value.data.text).length

/-- Nothing weighs nothing. -/
theorem weight_nil : weight [] = 0 := rfl

/-- A part weighs its text and the three bytes that the smallest unit takes. -/
theorem weight_cons (part : Part) (parts : List Part) :
    weight (part :: parts) = 3 + part.value.data.text.length + weight parts := by
  simp only [weight, List.length_cons, List.flatMap_cons, List.length_append]
  omega

/-- Weights add up. -/
theorem weight_append (parts others : List Part) :
    weight (parts ++ others) = weight parts + weight others := by
  induction parts with
  | nil => rw [List.nil_append, weight_nil, Nat.zero_add]
  | cons part parts ih =>
    rw [List.cons_append, weight_cons, weight_cons, ih]
    omega

/-- A value weighs what it has of its own, its attributes unit and its elements. -/
theorem weight_partsAt (attached : Bool) (level : Nat) (value : Value) :
    weight (value.partsAt attached level) = 3 + value.data.text.length +
      weight (Value.partsOfUnit level value.attributes) +
      weight (Value.partsOfData (level + 1) value.data) := by
  obtain ⟨kind, data, attributes⟩ := value
  rw [Value.partsAt, weight_cons, weight_append, ← Nat.add_assoc]

/-- An attributes unit, which has none itself, weighs what it has of its own and its elements. -/
theorem weight_partsOfUnit_some (level : Nat) (data : Data Value) :
    weight (Value.partsOfUnit level (some (.ofData .attributes data))) =
      3 + data.text.length + weight (Value.partsOfData (level + 1) data) := by
  rw [Value.partsOfUnit, weight_partsAt]
  rfl

/-- Units of the language are no shorter than their values weigh. -/
def Outweighs (unit : Language Value) : Prop :=
  ∀ bytes value level, unit bytes value → weight (value.partsAt false level) ≤ bytes.length

variable {limits : Limits} {unit : Language Value} {unit? : Option (Language Value)}

/-- A terminator is two bytes, which with a marker make the three. -/
theorem length_crlf : crlf.length = 2 := rfl

/-- A number has a digit and a terminator. -/
theorem three_le_of_number {head : Bytes} {n : Int} (h : Number head n) : 3 ≤ head.length := by
  cases h with
  | plain h =>
    have hpos := List.length_pos_iff.2 h.ne_nil
    rw [List.length_append, length_crlf]
    omega
  | negative h =>
    have hpos := List.length_pos_iff.2 h.ne_nil
    rw [List.cons_append, List.length_cons, List.length_append, length_crlf]
    omega

/-- Fragments have their payloads in them. -/
theorem length_le_of_fragments {bytes payload : Bytes} (h : Fragments bytes payload) :
    payload.length ≤ bytes.length := by
  induction h with
  | last => exact Nat.zero_le _
  | more _ _ _ ih =>
    simp only [List.length_append, List.length_cons]
    omega

/-- A blob has a header, and its payload if there is one. -/
theorem three_le_of_blob {limit : Nat} {bytes : Bytes} {payload? : Option Bytes}
    (h : Blob limit bytes payload?) : 3 + (payload?.getD []).length ≤ bytes.length := by
  cases h with
  | absent hhead => exact three_le_of_number hhead
  | bounded hhead =>
    have hthree := three_le_of_number hhead
    simp only [List.length_append, length_crlf, Option.getD_some]
    omega
  | fragmented hbytes =>
    have hlength := length_le_of_fragments hbytes
    simp only [List.cons_append, List.length_cons, List.length_append, length_crlf,
      Option.getD_some]
    omega

/-- Units outweigh their values together if each does by itself. -/
theorem weight_le_of_units (hunit : Outweighs unit) (level : Nat) {bytes : Bytes}
    {values : List Value} (h : Units unit bytes values) :
    weight (Value.partsOfItems level values) ≤ bytes.length := by
  induction h with
  | nil => exact Nat.le_refl _
  | cons hbytes _ ih =>
    have hfirst := hunit _ _ level hbytes
    rw [Value.partsOfItems, weight_append, List.length_append]
    omega

/-- An aggregate has a header, and the units of its elements. -/
theorem weight_le_of_aggregate (hunit : Outweighs unit) (level : Nat) {perEntry : Nat}
    {bytes : Bytes} {data : Data Value} (h : Aggregate perEntry unit bytes data) :
    3 + data.text.length + weight (Value.partsOfData level data) ≤ bytes.length := by
  cases h with
  | absent hhead => exact three_le_of_number hhead
  | bounded hhead hbytes =>
    have hthree := three_le_of_number hhead
    have hitems := weight_le_of_units hunit level hbytes
    simp only [Data.text, Value.partsOfData, List.length_nil, List.length_append]
    omega
  | streamed hbytes =>
    have hitems := weight_le_of_units hunit level hbytes
    simp only [Data.text, Value.partsOfData, List.length_nil, List.cons_append, List.length_cons,
      List.length_append, length_crlf]
    omega

/-- A body is no shorter than what a value with its data weighs without attributes. -/
theorem weight_le_of_body (hunit : ∀ unit, unit? = some unit → Outweighs unit) (level : Nat)
    {kind : Kind} {bytes : Bytes} {data : Data Value} (h : Body limits unit? kind bytes data) :
    3 + data.text.length + weight (Value.partsOfData level data) ≤ bytes.length := by
  cases h with
  | line hc h =>
    cases h
    simp only [Data.text, Value.partsOfData, List.length_cons, List.length_append, length_crlf,
      weight_nil]
    omega
  | blob hc h | noBlob hc h =>
    have hlength := three_le_of_blob h
    exact Nat.le_succ_of_le hlength
  | integer h => exact Nat.le_succ_of_le (three_le_of_number h)
  | null | endOfStream => exact Nat.le_refl 3
  | truth | falsehood => exact Nat.le_succ 3
  | aggregate hc hsome h => exact Nat.le_succ_of_le (weight_le_of_aggregate (hunit _ hsome) level h)

/-- A unit and the attributes unit that was pending for it are no shorter than its value weighs.
By induction on the rules: a unit in front is pending for what follows, and weighs nothing once
it is replaced. -/
theorem weight_le_of_behind (hunit : ∀ unit, unit? = some unit → Outweighs unit) (level : Nat)
    {pending : Option Value} {bytes : Bytes} {value : Value}
    (h : Behind limits unit? pending bytes value) :
    weight (value.partsAt false level) ≤
      bytes.length + weight (Value.partsOfUnit level pending) := by
  induction h with
  | value hbody | null hbody =>
    have hlength := weight_le_of_body hunit (level + 1) hbody
    rw [weight_partsAt]
    dsimp only
    omega
  | attributes hbody _ ih =>
    have hlength := weight_le_of_body hunit (level + 1) hbody
    rw [weight_partsOfUnit_some] at ih
    rw [List.length_append]
    omega

/-- No unit is shorter than the weight of its value. -/
theorem weight_le_of_unit (levels : Nat) : Outweighs (Grammar.unit limits levels) := by
  induction levels with
  | zero =>
    intro bytes value level h
    have hnone : ∀ unit, none = some unit → Outweighs unit := by
      intro unit hunit
      cases hunit
    exact weight_le_of_behind hnone level h
  | succ levels ih =>
    intro bytes value level h
    refine weight_le_of_behind (fun unit hunit => ?_) level h
    obtain rfl := Option.some.inj hunit
    exact ih

/-! ## Decoding -/

/-- What is taken for a value is no shorter than the value weighs. -/
theorem weight_le_of_decode {input rest : Bytes} {value : Value}
    (h : decode limits input = .ok value rest) :
    ∃ head, input = head ++ rest ∧ weight value.parts ≤ head.length := by
  obtain ⟨head, hhead, rfl⟩ := decode_eq_ok_iff_unit.1 h
  exact ⟨head, rfl, weight_le_of_unit _ _ _ 0 hhead⟩

/-- A value has a part, which is itself. -/
theorem three_le_weight (value : Value) : 3 ≤ weight value.parts := by
  rw [Value.parts, weight_partsAt]
  omega

/-- Calls that all succeed take three bytes each.  By induction on the calls. -/
theorem three_mul_le_of_readings {count : Nat} {input : Bytes}
    (h : ∀ reading ∈ (readings limits count input).1, ∃ value, reading.outcome = .ok value) :
    3 * count + (readings limits count input).2.length ≤ input.length := by
  induction count generalizing input with
  | zero => exact Nat.le_of_eq (Nat.zero_add _)
  | succ count ih =>
    rw [readings] at h ⊢
    obtain ⟨⟨value, hvalue⟩, hothers⟩ := List.forall_mem_cons.1 h
    cases hdecode : decode limits input with
    | error e rest =>
      rw [hdecode] at hvalue
      cases hvalue
    | ok first rest =>
      rw [hdecode] at hothers
      -- any value weighs three bytes at least, for its marker and a terminator
      obtain ⟨head, rfl, hweight⟩ := weight_le_of_decode hdecode
      have hthree := three_le_weight first
      have hrest := ih hothers
      rw [List.length_append]
      dsimp only [stateAfter] at hrest ⊢
      omega

/-- Economy: **decoding ends, and a value is no larger than what was read for it.**  With more
rounds than bytes no loop is cut off, and more rounds still change nothing.  What is taken for
a value has three bytes for each of its parts, which are the value, its elements and attributes
units on every level, and the bytes of all their texts.  So calls that all succeed are no more
than a third of the bytes. -/
theorem decode_economical (limits : Limits) (input : Bytes) :
    (∀ rounds, input.length < rounds →
        (Decoder.unit limits rounds limits.maxDepth).Ends input ∧
          (Decoder.unit limits rounds limits.maxDepth).run input = decode limits input) ∧
      (∀ (value : Value) (rest : Bytes), decode limits input = .ok value rest →
        ∃ head, input = head ++ rest ∧
          3 * value.parts.length +
            (value.parts.flatMap fun part => part.value.data.text).length ≤ head.length) ∧
      ∀ count, (∀ reading ∈ (readings limits count input).1, ∃ value,
          reading.outcome = .ok value) →
        3 * count + (readings limits count input).2.length ≤ input.length := by
  refine ⟨?_, ?_, ?_⟩
  · intro rounds hrounds
    have hunit := Decoder.unit_lockstep hrounds (Nat.le_refl (input.length + 1)) limits
      limits.maxDepth
    exact ⟨hunit.ends (Nat.lt_succ_self _), hunit.run_eq (Nat.lt_succ_self _)⟩
  · intro value rest h
    exact weight_le_of_decode h
  · intro count h
    exact three_mul_le_of_readings h

/-- A line, and a map that announces more elements than could ever follow. -/
def boastful : Bytes := ascii "+ab\r\n%9223372036854775807\r\n_\r\n".toList

/-- Three bytes and two of text are taken for the line.  A call for the map ends with the bytes,
so only one call in a row succeeds. -/
theorem decode_boastful :
    decode {} boastful = .ok (.simpleString (ascii ['a', 'b'])) (boastful.drop 5) ∧
      (∃ head, boastful = head ++ boastful.drop 5 ∧ 3 * 1 + 2 ≤ head.length) ∧
      (Decoder.unit {} 30 128).Ends (boastful.drop 5) ∧
      decode {} (boastful.drop 5) = .error (.stream .endOfStream) [] ∧
      3 * 1 + 25 ≤ boastful.length := by
  have hfirst : decode {} boastful = .ok (.simpleString (ascii ['a', 'b'])) (boastful.drop 5) := rfl
  have hone : ∀ reading ∈ (readings {} 1 boastful).1, ∃ value, reading.outcome = .ok value :=
    List.forall_mem_singleton.2 ⟨_, rfl⟩
  obtain ⟨-, hvalue, hreadings⟩ := decode_economical {} boastful
  obtain ⟨hends, hrun⟩ := (decode_economical {} (boastful.drop 5)).1 30 (by decide)
  exact ⟨hfirst, hvalue _ _ hfirst, hends, hrun.symm.trans rfl, hreadings 1 hone⟩

end RespCodec
