/-
# Decoders accept exactly the grammar

A unit is attributes units and then the body of a value, for the reader as for the
grammar (`behind_iff`).  The induction is on the levels of nesting: a reader of
elements that is exact makes an exact reader of the units around them
(`unitBehind_exact`), and where no level is left neither the reader nor the
grammar has aggregates.

`decode` counts one round more than its input has bytes, so that its loops are
never cut off, and it accepts the grammar on every input
(`decode_eq_ok_iff_unit`).
-/

import RespCodec.Proofs.Bodies

namespace RespCodec
namespace Decoder

open Grammar

variable {rounds bodyRounds : Nat} {limits : Limits}
  {element? : Option (Thunk (Decoder Value))} {unit? : Option (Language Value)}

/-- The kind that announced a value stays its kind, unless the value is a null of another kind than
the end of a stream. -/
theorem settledKind_of_ne_null {kind : Kind} {data : Data Value}
    (h : data ≠ .null ∨ kind = .endOfStream) : settledKind kind data = kind := by
  unfold settledKind
  split
  · rw [if_pos (h.resolve_left fun hne => hne rfl), h.resolve_left fun hne => hne rfl]
  · rfl

/-- A null settles as a null, whatever announced it. -/
theorem settledKind_null {kind : Kind} (h : kind ≠ .endOfStream) :
    settledKind kind .null = .null := if_neg h

/-- A unit is the body of a value, whose kind is settled by its data, or a body of attributes in
front of a unit.  The rules for a value with data and for a null differ in the kind that
settles, so one case does for both. -/
theorem behind_iff {pending : Option Value} {whole : Bytes} {value : Value} :
    Behind limits unit? pending whole value ↔
      (∃ kind data, Body limits unit? kind whole data ∧ kind ≠ .attributes ∧
        value = ⟨settledKind kind data, data, pending⟩) ∨
      ∃ front more data, whole = front ++ more ∧ Body limits unit? .attributes front data ∧
        Behind limits unit? (some (.ofData .attributes data)) more value := by
  constructor
  · intro h
    cases h with
    | value hbody hkind hdata =>
      exact .inl ⟨_, _, hbody, hkind, by rw [settledKind_of_ne_null hdata]⟩
    | null hbody hkind hend =>
      exact .inl ⟨_, _, hbody, hkind, by rw [settledKind_null hend]⟩
    | attributes hbody hmore => exact .inr ⟨_, _, _, rfl, hbody, hmore⟩
  · rintro (⟨kind, data, hbody, hkind, rfl⟩ | ⟨front, more, data, rfl, hbody, hmore⟩)
    -- data that are null make a null of the value, except of the end of a stream
    · by_cases hnull : data = .null ∧ kind ≠ .endOfStream
      · obtain ⟨rfl, hend⟩ := hnull
        rw [settledKind_null hend]
        exact .null hbody hkind hend
      · have hdata : data ≠ .null ∨ kind = .endOfStream := by
          by_cases hend : kind = .endOfStream
          · exact .inr hend
          · exact .inl fun hdata => hnull ⟨hdata, hend⟩
        rw [settledKind_of_ne_null hdata]
        exact .value hbody hkind hdata
    · exact .attributes hbody hmore

/-- A unit reader with exact readers of elements accepts a unit of the grammar.  By induction on
the rounds: a body of attributes takes one of them and a byte at least, so where the bytes are
fewer than the rounds they stay so. -/
theorem unitBehind_exact (helements : ElementsExact bodyRounds element? unit?)
    (hrounds : rounds ≤ bodyRounds) (pending : Option Value) :
    Exact rounds (unitBehind limits bodyRounds element? rounds pending)
      (Behind limits unit? pending) := by
  induction rounds generalizing pending with
  | zero => exact exact_outOfRounds _
  | succ rounds ih =>
    have ih := ih (Nat.le_of_succ_le hrounds)
    constructor
    · intro input rest value h
      simp only [unitBehind, bind_eq, run_bind_eq_ok, run_nextByte_eq_ok] at h
      obtain ⟨b, middle, rfl, h⟩ := h
      split at h
      · exact absurd h run_refuse_ne_ok
      rename_i kind hkind
      -- a byte stands for one kind at most, so it is the marker of the kind found
      obtain rfl := Kind.marker_of_ofMarker? hkind
      simp only [run_bind_eq_ok] at h
      obtain ⟨data, tail, hbody, h⟩ := h
      obtain ⟨bytes, hbytes, rfl⟩ := body_sound helements hbody
      split at h
      · rename_i hattributes
        subst hattributes
        obtain ⟨more, hmore, rfl⟩ := (ih _).sound h
        exact ⟨_, .attributes hbytes hmore, by simp⟩
      · rename_i hattributes
        cases h
        exact ⟨_, behind_iff.2 (.inl ⟨kind, data, hbytes, hattributes, rfl⟩), rfl⟩
    · intro whole rest value h hlength
      simp only [unitBehind, bind_eq, run_bind_eq_ok, run_nextByte_eq_ok]
      rcases behind_iff.1 h with ⟨kind, data, hbody, hattributes, rfl⟩ |
        ⟨front, more, data, rfl, hbody, hmore⟩
      · obtain ⟨bytes, rfl, hrun⟩ := body_complete helements hbody
        refine ⟨kind.marker, bytes ++ rest, rfl, ?_⟩
        simp only [Kind.ofMarker?_marker, run_bind_eq_ok, if_neg hattributes]
        refine ⟨data, rest, hrun ?_, rfl⟩
        exact Nat.lt_of_lt_of_le (Nat.lt_of_succ_lt hlength) hrounds
      · obtain ⟨bytes, rfl, hrun⟩ := body_complete helements hbody
        simp only [List.cons_append, List.append_assoc, List.length_cons] at hlength ⊢
        refine ⟨Kind.attributes.marker, bytes ++ (more ++ rest), rfl, ?_⟩
        simp only [Kind.ofMarker?_marker, run_bind_eq_ok, if_true]
        refine ⟨data, more ++ rest, hrun (by omega), (ih _).complete hmore ?_⟩
        rw [List.length_append] at hlength
        omega

/-- A unit reader accepts a unit of the grammar with as many levels.  By induction on the
levels, which makes the readers of elements exact. -/
theorem unit_exact (limits : Limits) (rounds levels : Nat) :
    Exact rounds (Decoder.unit limits rounds levels) (Grammar.unit limits levels) := by
  induction levels with
  | zero => exact unitBehind_exact .none (Nat.le_refl rounds) none
  | succ levels ih =>
    exact unitBehind_exact (.some ⟨ih, unit_ne_nil⟩) (Nat.le_refl rounds) none

end Decoder

/-- Acceptance: **decoding succeeds exactly on the units of the grammar,** whatever follows
them.  Decoding has a round more than there are bytes, which is what an exact reader wants to be
complete. -/
theorem decode_eq_ok_iff_unit {limits : Limits} {input rest : Bytes} {value : Value} :
    decode limits input = .ok value rest ↔
      ∃ head, Grammar.unit limits limits.maxDepth head value ∧ input = head ++ rest := by
  have hexact := Decoder.unit_exact limits (input.length + 1) limits.maxDepth
  constructor
  · exact hexact.sound
  · rintro ⟨head, hhead, rfl⟩
    exact hexact.complete hhead (Nat.lt_succ_self _)

/-- Of two attributes units the last is kept, no array is a null, and a byte behind
the value is left. -/
example : decode {} (ascii "|-1\r\n|1\r\n+a\r\n:-0\r\n*-1\r\n*".toList) =
    .ok (Value.null.withAttributes (.attributesUnit [(.simpleString [0x61], .integer 0)]))
      (ascii "*".toList) := by
  rfl

/-- Acceptance by length: **decoding gives `value`, takes `n` bytes and leaves the
others exactly if the first `n` bytes are a unit written for `value`.** -/
theorem decode_consumes_iff (limits : Limits) (input rest : Bytes) (n : Nat) (value : Value) :
    decode limits input = .ok value rest ∧ rest.length + n = input.length ↔
      n ≤ input.length ∧ rest = input.drop n ∧
        Grammar.unit limits limits.maxDepth (input.take n) value := by
  rw [decode_eq_ok_iff_unit]
  constructor
  · rintro ⟨⟨head, hhead, rfl⟩, hlength⟩
    -- the bytes taken are the head, so their number says where to cut
    have hn : head.length = n := by
      rw [List.length_append] at hlength
      omega
    subst hn
    refine ⟨?_, List.drop_left.symm, ?_⟩
    · rw [List.length_append]
      omega
    · rwa [List.take_left]
  · rintro ⟨hn, rfl, hhead⟩
    refine ⟨⟨input.take n, hhead, (List.take_append_drop ..).symm⟩, ?_⟩
    rw [List.length_drop]
    omega

end RespCodec
