/-
# Decoders that accept a language

A decoder on a list of bytes accepts a head of the list and leaves the rest.
`Decoder.Exact` says that the heads it accepts, with the results it gives for
them, are those of a language: what it accepts is in the language
(`Exact.sound`), and what is in the language it accepts, whatever follows
(`Exact.complete`).

Loops of a decoder count their rounds.  On an input with as many bytes as there
are rounds a loop may be cut off, so completeness is about shorter inputs.

The readers at the bottom do not loop.  Success of each is an equation between
what was there before and what is left, stated as an equivalence
(`run_terminator_eq_ok`, `run_payload_eq_ok`); a chain of readers is taken apart by
`run_bind_eq_ok`.  Where a refusal counts as well, an equation says what a reader
comes to (`run_expect_cons`, `run_checkLength`).
-/

import RespCodec.Decoder.Unit
import RespCodec.Proofs.Grammar

namespace RespCodec
namespace Decoder

variable {α β σ : Type}

/-- On inputs shorter than the number of rounds, a decoder accepts exactly the
bytes of a language. -/
structure Exact (rounds : Nat) (d : Decoder α) (language : Language α) : Prop where
  sound : ∀ {input rest : Bytes} {a : α}, d.run input = .ok a rest →
    ∃ head, language head a ∧ input = head ++ rest
  complete : ∀ {head rest : Bytes} {a : α}, language head a → (head ++ rest).length < rounds →
    d.run (head ++ rest) = .ok a rest

/-- No input is shorter than no rounds. -/
theorem exact_outOfRounds (language : Language α) : Exact 0 outOfRounds language := by
  constructor
  · intro input rest a h
    cases h
  · intro head rest a _ hlength
    exact absurd hlength (Nat.not_lt_zero _)

/-- A finished decoder takes nothing from its source. -/
@[simp] theorem run_done [ByteSource σ] (a : α) (s : σ) : (done a).run s = .ok a s := rfl

/-- A sequence succeeds if both parts do, the second where the first stopped.  Runs of readers
are taken apart with it, one operation after the other. -/
theorem run_bind_eq_ok [ByteSource σ] {d : Decoder α} {f : α → Decoder β} {s t : σ} {b : β} :
    (d.bind f).run s = .ok b t ↔ ∃ a u, d.run s = .ok a u ∧ (f a).run u = .ok b t := by
  rw [run_bind]
  constructor
  · intro h
    split at h
    · exact ⟨_, _, ‹_›, h⟩
    · cases h
  · rintro ⟨a, u, hd, hf⟩
    rw [hd]
    exact hf

/-- A refusal is never a success, which closes the branches of a reader that refuse. -/
theorem run_refuse_ne_ok [ByteSource σ] {violation : Violation} {s t : σ} {a : α} :
    (refuse violation : Decoder α).run s ≠ .ok a t := by
  intro h
  cases h

/-- The next byte of a list is its head. -/
theorem run_nextByte_cons (b : UInt8) (input : Bytes) :
    nextByte.run (b :: input) = .ok b input := rfl

/-- A byte is read if there is one, and the rest is what stands behind it. -/
theorem run_nextByte_eq_ok {input rest : Bytes} {b : UInt8} :
    nextByte.run input = .ok b rest ↔ input = b :: rest := by
  cases input with
  | nil => simp [nextByte, run, ByteSource.byte, Bytes.takeByte]
  | cons c input => simp [nextByte, run, ByteSource.byte, Bytes.takeByte]

/-- A span is taken as a whole, from the front: what is read has the extent that the span has in the
input. -/
theorem run_take_eq_ok {span : Span} {input rest text : Bytes} :
    (take span).run input = .ok text rest ↔
      text.length = span.extent input ∧ input = text ++ rest := by
  simp only [take, run, ByteSource.span, Bytes.takeSpan]
  constructor
  · intro h
    split at h
    · rename_i htaken
      split at htaken
      · rename_i hlength
        cases htaken
        cases h
        exact ⟨hlength, (List.take_append_drop _ _).symm⟩
      · cases htaken
    · cases h
  · rintro ⟨hlength, rfl⟩
    simp [← hlength]

/-- The byte is taken whether or not it is the one that was expected, so a refusal names a byte that
is gone. -/
theorem run_expect_cons (expected b : UInt8) (input : Bytes) :
    (expect expected).run (b :: input) =
      if b = expected then .ok () input
      else .error (.violation (.unexpectedByte expected b)) input := by
  show (if b = expected then return () else refuse _ : Decoder Unit).run input = _
  split
  · rfl
  · rfl

/-- One byte alone is accepted. -/
theorem run_expect_eq_ok {expected : UInt8} {input rest : Bytes} {u : Unit} :
    (expect expected).run input = .ok u rest ↔ input = expected :: rest := by
  simp only [expect, bind_eq, pure_eq_done, run_bind_eq_ok, run_nextByte_eq_ok]
  constructor
  · rintro ⟨b, middle, rfl, h⟩
    split at h
    · cases h
      simp [*]
    · exact absurd h run_refuse_ne_ok
  · rintro rfl
    exact ⟨expected, rest, rfl, by simp⟩

/-- A terminator is accepted as the two bytes that it is. -/
theorem run_terminator_eq_ok {input rest : Bytes} {u : Unit} :
    terminator.run input = .ok u rest ↔ input = crlf ++ rest := by
  simp only [terminator, bind_eq, run_bind_eq_ok, run_expect_eq_ok]
  constructor
  · rintro ⟨_, _, rfl, rfl⟩
    rfl
  · rintro rfl
    exact ⟨(), lf :: rest, rfl, rfl⟩

/-- A check takes nothing, and refuses lengths beyond the limit alone. -/
theorem run_checkLength (limit length : Nat) (input : Bytes) :
    (checkLength limit length).run input =
      if limit < length then .error (.violation (.blobTooLarge length limit)) input
      else .ok () input := by
  unfold checkLength
  split
  · rfl
  · rfl

/-- A length that passes is within the limit, on any source, and the source is as it was. -/
theorem run_checkLength_eq_ok [ByteSource σ] {limit length : Nat} {s t : σ} {u : Unit} :
    (checkLength limit length).run s = .ok u t ↔ length ≤ limit ∧ s = t := by
  unfold checkLength
  split
  · constructor
    · exact fun h => absurd h run_refuse_ne_ok
    · omega
  · simp only [pure_eq_done, run_done, EStateM.Result.ok.injEq, true_and]
    constructor
    · exact fun h => ⟨by omega, h⟩
    · exact fun h => h.2

/-- A payload is as many bytes as were asked for, whatever they are, and a terminator. -/
theorem run_payload_eq_ok {length : Nat} {input rest payload : Bytes} :
    (Decoder.payload length).run input = .ok payload rest ↔
      payload.length = length ∧ input = payload ++ (crlf ++ rest) := by
  simp only [Decoder.payload, bind_eq, pure_eq_done, run_bind_eq_ok, run_take_eq_ok,
    run_terminator_eq_ok, run_done, Span.extent]
  constructor
  · rintro ⟨_, _, ⟨hlength, rfl⟩, _, _, rfl, h⟩
    cases h
    exact ⟨hlength, rfl⟩
  · rintro ⟨hlength, rfl⟩
    exact ⟨payload, crlf ++ rest, ⟨hlength, rfl⟩, (), rest, rfl, rfl⟩

end Decoder
end RespCodec
