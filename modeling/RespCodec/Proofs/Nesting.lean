/-
# Decoding inside aggregates

An element is read like the unit around it, with one level of nesting less left for it.
`decodeWithin` reads a unit for which a number of levels is left, so `decode` is the case
of all levels, and `decodeBody` reads what follows a marker there.

`decode` counts the rounds of its loops once, for all of its input, and elements are read
with as many.  More rounds than bytes make no difference, so inside an aggregate the same
is read from bytes as from the bytes alone (`run_unit_eq`, `run_body_eq`).  A unit comes
to what its body comes to (`decodeWithin_marker`), and of two bodies that come to the same
neither can be told from the other, attributes units included (`decodeWithin_congr`).
-/

import RespCodec.Proofs.Acceptance
import RespCodec.Proofs.Lockstep

namespace RespCodec

open Grammar

/-- The language of elements where `levels` levels are left, if there is one. -/
def Grammar.elementLanguage? (limits : Limits) : (levels : Nat) → Option (Language Value)
  | 0 => none
  | levels + 1 => some (Grammar.unit limits levels)

namespace Decoder

/-- The reader of elements where `levels` levels are left, if there is one. -/
def elementReader? (limits : Limits) (rounds : Nat) :
    (levels : Nat) → Option (Thunk (Decoder Value))
  | 0 => none
  | levels + 1 => some ⟨fun _ => unit limits rounds levels⟩

variable {limits : Limits} {rounds levels : Nat} {kind : Kind} {input rest : Bytes}

/-- A unit is read with the elements that its levels leave, and behind no attributes. -/
theorem unit_eq (limits : Limits) (rounds levels : Nat) :
    unit limits rounds levels =
      unitBehind limits rounds (elementReader? limits rounds levels) rounds none := by
  cases levels <;> rfl

/-- Where a level is left both the reader of elements and their language are there, and agree. -/
theorem elementReader?_exact (limits : Limits) (rounds levels : Nat) :
    ElementsExact rounds (elementReader? limits rounds levels)
      (elementLanguage? limits levels) := by
  cases levels with
  | zero => exact .none
  | succ levels => exact .some ⟨unit_exact limits rounds levels, unit_ne_nil⟩

/-- So are two readers of elements with different rounds, if both have enough of them. -/
theorem elementReader?_lockstep {n rounds' : Nat} (h : n ≤ rounds) (h' : n ≤ rounds')
    (limits : Limits) (levels : Nat) :
    ElementsLockstep n (elementReader? limits rounds levels)
      (elementReader? limits rounds' levels) := by
  cases levels with
  | zero => exact .none
  | succ levels =>
    exact .some fun l hl => unit_lockstep (Nat.le_trans hl h) (Nat.le_trans hl h') limits levels

end Decoder

/-- Read one value in a place where aggregates may nest `levels` deep. -/
def decodeWithin (limits : Limits) (levels : Nat) : EStateM Error Bytes Value := fun input =>
  (Decoder.unit limits (input.length + 1) levels).run input

/-- Read what follows the marker of a kind in a place where aggregates may nest `levels` deep. -/
def decodeBody (limits : Limits) (levels : Nat) (kind : Kind) :
    EStateM Error Bytes (Data Value) := fun input =>
  (Decoder.body limits (input.length + 1)
    (Decoder.elementReader? limits (input.length + 1) levels) kind).run input

variable {limits : Limits} {levels : Nat} {kind : Kind} {input rest : Bytes}

/-- Decoding is decoding with all levels left. -/
theorem decodeWithin_maxDepth (limits : Limits) (input : Bytes) :
    decodeWithin limits limits.maxDepth input = decode limits input := rfl

/-! ## Rounds make no difference -/

namespace Decoder

/-- A unit is read in the same way with any numbers of rounds that are more than there are
bytes.  The rounds for the units in front of a value need not be those of its body. -/
theorem run_unitBehind_eq {bodyRounds rounds : Nat} (hbody : input.length < bodyRounds)
    (h : input.length < rounds) :
    (unitBehind limits bodyRounds (elementReader? limits bodyRounds levels) rounds none).run input =
      decodeWithin limits levels input := by
  have hself := Nat.le_refl (input.length + 1)
  have helements := elementReader?_lockstep hbody hself limits levels
  rw [decodeWithin, unit_eq]
  exact (unitBehind_lockstep hbody hself h hself helements none).run_eq (Nat.lt_succ_self _)

/-- Inside an aggregate a unit is read with the rounds of the whole input.  Any number beyond the
bytes that are left comes to the same. -/
theorem run_unit_eq {rounds : Nat} (h : input.length < rounds) :
    (unit limits rounds levels).run input = decodeWithin limits levels input := by
  rw [unit_eq]
  exact run_unitBehind_eq h h

/-- So is a body. -/
theorem run_body_eq {rounds : Nat} (h : input.length < rounds) :
    (body limits rounds (elementReader? limits rounds levels) kind).run input =
      decodeBody limits levels kind input := by
  have helements := elementReader?_lockstep h (Nat.le_refl (input.length + 1)) limits levels
  exact (body_lockstep h (Nat.le_refl _) helements kind).run_eq (Nat.lt_succ_self _)

end Decoder

/-! ## Units and bodies of the grammar -/

/-- Inside aggregates, too, decoding succeeds exactly on the units of the grammar. -/
theorem decodeWithin_eq_ok_iff {value : Value} :
    decodeWithin limits levels input = .ok value rest ↔
      ∃ head, Grammar.unit limits levels head value ∧ input = head ++ rest := by
  have hexact := Decoder.unit_exact limits (input.length + 1) levels
  constructor
  · exact hexact.sound
  · rintro ⟨head, hhead, rfl⟩
    exact hexact.complete hhead (Nat.lt_succ_self _)

/-- A body is decoded exactly if it is one of the grammar behind its marker. -/
theorem decodeBody_eq_ok_iff {data : Data Value} :
    decodeBody limits levels kind input = .ok data rest ↔
      ∃ bytes, Body limits (elementLanguage? limits levels) kind (kind.marker :: bytes) data ∧
        input = bytes ++ rest := by
  have helements := Decoder.elementReader?_exact limits (input.length + 1) levels
  constructor
  · exact Decoder.body_sound helements
  · rintro ⟨bytes, hbody, rfl⟩
    obtain ⟨_, hhead, hrun⟩ := Decoder.body_complete helements hbody
    obtain rfl := (List.cons.inj hhead).2
    exact hrun (Nat.lt_succ_self _)

/-! ## Units from bodies -/

/-- Behind a marker the body of its kind is read, and then another unit if that was one of
attributes. -/
theorem Decoder.run_unitBehind_marker {bodyRounds rounds : Nat}
    {element? : Option (Thunk (Decoder Value))} {pending : Option Value} :
    (unitBehind limits bodyRounds element? (rounds + 1) pending).run (kind.marker :: input) =
      match (body limits bodyRounds element? kind).run input with
      | .ok data rest =>
        if kind = .attributes then
          (unitBehind limits bodyRounds element? rounds (some (.ofData .attributes data))).run rest
        else .ok ⟨settledKind kind data, data, pending⟩ rest
      | .error e rest => .error e rest := by
  simp only [unitBehind, bind_eq, run_bind, run_nextByte_cons, Kind.ofMarker?_marker]
  cases (body limits bodyRounds element? kind).run input with
  | error e rest => rfl
  | ok data rest =>
    dsimp only
    split
    · rfl
    · rfl

/-- Behind its marker a unit comes to what its body comes to, unless that is one of
attributes. -/
theorem decodeWithin_marker (hkind : kind ≠ .attributes) :
    decodeWithin limits levels (kind.marker :: input) =
      match decodeBody limits levels kind input with
      | .ok data rest => .ok ⟨Decoder.settledKind kind data, data, none⟩ rest
      | .error e rest => .error e rest := by
  have hrounds : input.length < input.length + 1 := Nat.lt_succ_self _
  rw [← Decoder.run_unit_eq (Nat.succ_lt_succ hrounds), Decoder.unit_eq,
    Decoder.run_unitBehind_marker, Decoder.run_body_eq (Nat.lt_succ_of_lt hrounds)]
  simp only [if_neg hkind]

/-- Behind bodies that come to the same, units do. -/
theorem decodeWithin_congr {input' : Bytes}
    (h : decodeBody limits levels kind input = decodeBody limits levels kind input') :
    decodeWithin limits levels (kind.marker :: input) =
      decodeWithin limits levels (kind.marker :: input') := by
  -- both are read with the same rounds, more than either has bytes
  let rounds := max input.length input'.length + 1
  have hrounds : input.length < rounds := Nat.lt_succ_of_le (Nat.le_max_left _ _)
  have hrounds' : input'.length < rounds := Nat.lt_succ_of_le (Nat.le_max_right _ _)
  rw [← Decoder.run_unit_eq (Nat.succ_lt_succ hrounds),
    ← Decoder.run_unit_eq (Nat.succ_lt_succ hrounds'), Decoder.unit_eq,
    Decoder.run_unitBehind_marker, Decoder.run_unitBehind_marker,
    Decoder.run_body_eq (Nat.lt_succ_of_lt hrounds), h,
    Decoder.run_body_eq (Nat.lt_succ_of_lt hrounds')]

end RespCodec
