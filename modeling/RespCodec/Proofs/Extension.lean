/-
# Bytes that come later change nothing

What a list of bytes is decoded as is settled by the bytes that are taken for it.
Decoding the list with other bytes behind it takes more rounds, but the two decoders
are in lockstep, so it comes to the same unless the list is used up first
(`decode_settles`).

A unit that is cut off is therefore neither another value nor a violation, and units
written one after another are read one after another (`readings_units`).
-/

import RespCodec.Proofs.Lockstep

namespace RespCodec

open Decoder

/-- Decoding settles what the bytes are, or uses them up.  The longer input is decoded with more
rounds, and lockstep says that this makes no difference. -/
theorem decode_settles (limits : Limits) (input more : Bytes) :
    Settles more (decode limits input) (decode limits (input ++ more)) := by
  have hrounds : input.length + 1 ≤ (input ++ more).length + 1 := by
    rw [List.length_append]
    omega
  have hunit := unit_lockstep (Nat.le_refl _) hrounds limits limits.maxDepth
  exact hunit.settles (Nat.lt_succ_self _) more

variable {limits : Limits} {input rest : Bytes}

/-- A value stays the value, whatever follows. -/
theorem decode_append_of_ok {value : Value} (h : decode limits input = .ok value rest)
    (more : Bytes) : decode limits (input ++ more) = .ok value (rest ++ more) := by
  have hsettles := decode_settles limits input more
  rw [h] at hsettles
  generalize decode limits (input ++ more) = result at hsettles ⊢
  cases hsettles with
  | ok => rfl

/-- A violation stays the violation, whatever follows. -/
theorem decode_append_of_violation {violation : Violation}
    (h : decode limits input = .error (.violation violation) rest) (more : Bytes) :
    decode limits (input ++ more) = .error (.violation violation) (rest ++ more) := by
  have hsettles := decode_settles limits input more
  rw [h] at hsettles
  generalize decode limits (input ++ more) = result at hsettles ⊢
  cases hsettles with
  | refused => rfl

/-- Decoding that fails without a violation has used up its input. -/
theorem eq_nil_of_decode_eq_error {e : Error} (h : decode limits input = .error e rest)
    (hviolation : ∀ violation, e ≠ .violation violation) :
    ∃ cut, e = .stream cut ∧ cut.kind = .unexpectedEnd ∧ rest = [] := by
  have hsettles := decode_settles limits input []
  rw [h] at hsettles
  generalize decode limits (input ++ []) = result at hsettles
  cases hsettles with
  | refused => exact absurd rfl (hviolation _)
  | cutShort hcut => exact ⟨_, rfl, hcut, rfl⟩

/-- A unit that is cut off ends too early.  It can be neither a value nor a violation, as these
would stay with the missing bytes behind them. -/
theorem decode_of_cut {front back : Bytes} {value : Value} (hback : back ≠ [])
    (h : decode limits (front ++ back) = .ok value []) :
    ∃ cut, decode limits front = .error (.stream cut) [] ∧ cut.kind = .unexpectedEnd := by
  have hsettles := decode_settles limits front back
  rw [h] at hsettles
  cases hfront : decode limits front with
  | ok value rest =>
    rw [hfront] at hsettles
    generalize hnil : ([] : Bytes) = left at hsettles
    cases hsettles with
    | ok => exact absurd (List.append_eq_nil_iff.1 hnil.symm).2 hback
  | error e rest =>
    rw [hfront] at hsettles
    cases hsettles with
    | cutShort hcut => exact ⟨_, rfl, hcut⟩

/-- Units one after another are read one after another, each in its own bytes.  By induction on
the units: the first is decoded in front of the others as it is by itself. -/
theorem readings_units {units : List (Bytes × Value)}
    (h : ∀ unit ∈ units, decode limits unit.1 = .ok unit.2 []) (rest : Bytes) :
    readings limits units.length (units.flatMap (·.1) ++ rest) =
      (units.map fun unit => ⟨.ok unit.2, unit.1.length⟩, rest) := by
  induction units with
  | nil => rfl
  | cons unit units ih =>
    have hfirst := decode_append_of_ok (h unit List.mem_cons_self) (units.flatMap (·.1) ++ rest)
    -- the size goes down by the bytes of the first unit, whatever is behind them
    have htaken : ByteSource.size (unit.1 ++ (units.flatMap (·.1) ++ rest)) -
        ByteSource.size ([] ++ (units.flatMap (·.1) ++ rest)) = unit.1.length := by
      simp only [ByteSource.size, List.nil_append]
      rw [List.length_append]
      omega
    rw [List.flatMap_cons, List.append_assoc, List.length_cons, readings_succ_of_ok hfirst, htaken,
      List.nil_append, ih fun other hother => h other (List.mem_cons_of_mem _ hother)]
    rfl

/-- Stability: **what bytes are decoded as is settled by the bytes taken for it.**  A
value or a violation stays, with as many bytes taken, whatever follows; any other
failure is an early end of an input that is used up.  So a unit that is cut off
always ends too early, and units one after another are decoded as their values. -/
theorem decode_stable (limits : Limits) :
    (∀ (input rest : Bytes) (value : Value), decode limits input = .ok value rest →
        ∀ more, decode limits (input ++ more) = .ok value (rest ++ more)) ∧
      (∀ (input rest : Bytes) (violation : Violation),
        decode limits input = .error (.violation violation) rest →
        ∀ more, decode limits (input ++ more) = .error (.violation violation) (rest ++ more)) ∧
      (∀ (input rest : Bytes) (e : Error), decode limits input = .error e rest →
        (∀ violation, e ≠ .violation violation) →
        ∃ cut, e = .stream cut ∧ cut.kind = .unexpectedEnd ∧ rest = []) ∧
      (∀ (front back : Bytes) (value : Value), back ≠ [] →
        decode limits (front ++ back) = .ok value [] →
        ∃ cut, decode limits front = .error (.stream cut) [] ∧ cut.kind = .unexpectedEnd) ∧
      ∀ units : List (Bytes × Value), (∀ unit ∈ units, decode limits unit.1 = .ok unit.2 []) →
        ∀ rest, readings limits units.length (units.flatMap (·.1) ++ rest) =
          (units.map fun unit => ⟨.ok unit.2, unit.1.length⟩, rest) := by
  refine ⟨?_, ?_, ?_, ?_, ?_⟩
  · intro input rest value h
    exact decode_append_of_ok h
  · intro input rest violation h
    exact decode_append_of_violation h
  · intro input rest e h
    exact eq_nil_of_decode_eq_error h
  · intro front back value hback h
    exact decode_of_cut hback h
  · intro units h
    exact readings_units h

/-- An attributes unit, and a streamed map of a string in fragments to a truth value. -/
def fragmented : Bytes :=
  ascii "|1\r\n+a\r\n:1\r\n%?\r\n$?\r\n;2\r\nhi\r\n;0\r\n#t\r\n.\r\n".toList

/-- Cut off anywhere, the unit ends too early. -/
theorem decode_fragmented :
    decode {} fragmented = .ok ((Value.map [(.blobString (ascii "hi".toList), .boolean true)])
        |>.withAttributes (.attributesUnit [(.simpleString (ascii "a".toList), .integer 1)])) [] ∧
      ∀ n < fragmented.length, ∃ cut, decode {} (fragmented.take n) = .error (.stream cut) [] ∧
        cut.kind = .unexpectedEnd := by
  have hcut (value : Value) (h : decode {} fragmented = .ok value []) :
      ∀ n < fragmented.length, ∃ cut, decode {} (fragmented.take n) = .error (.stream cut) [] ∧
        cut.kind = .unexpectedEnd := by
    intro n hn
    have hrest : fragmented.drop n ≠ [] := by
      rw [Ne, List.drop_eq_nil_iff]
      omega
    rw [← List.take_append_drop n fragmented] at h
    exact (decode_stable {}).2.2.2.1 _ _ value hrest h
  exact ⟨rfl, hcut _ rfl⟩

end RespCodec
