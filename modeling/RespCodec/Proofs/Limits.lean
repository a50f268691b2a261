/-
# Limits only refuse

A limit is there to refuse, and it does nothing else.  Under higher limits the same
bytes come to the same result, with as many of them taken, unless it was a limit that
stopped the decoder (`decode_narrows`).

`Decoder.Narrows` says so of two decoders, one under the limits and one under higher
ones: on any bytes the first is stopped by a limit, or both come to the same.  It goes
through a sequence (`Narrows.bind`), and so from the fields to a whole unit.  The limits
are looked at in four places:

| place | stopped when | otherwise |
| --- | --- | --- |
| a line | its window ends before a line feed | both end at the line feed, or with the input |
| a payload | its header says more than the limit | the limit is not looked at again |
| a fragment | it goes past the limit with those before it | the next fragment is read |
| an aggregate | no level is left, before its header | the higher limits have a level left too |
-/

import RespCodec.Proofs.LineReadings

namespace RespCodec

/-- The violation is that a limit was exceeded. -/
inductive Violation.Exceeds (limits : Limits) : Violation → Prop
  | depth : Exceeds limits (.nestingTooDeep limits.maxDepth)
  | length {length : Nat} (h : limits.maxBlobLength < length) :
    Exceeds limits (.blobTooLarge length limits.maxBlobLength)

/-- A run is stopped by a limit, or comes to what another comes to. -/
inductive Agrees {α : Type} (limits : Limits) :
    EStateM.Result Error Bytes α → EStateM.Result Error Bytes α → Prop
  | stopped {violation : Violation} {rest : Bytes} {r : EStateM.Result Error Bytes α}
    (h : violation.Exceeds limits) : Agrees limits (.error (.violation violation) rest) r
  | same {r : EStateM.Result Error Bytes α} : Agrees limits r r

/-- One set of limits admits whatever another does. -/
structure Limits.Le (limits limits' : Limits) : Prop where
  maxDepth : limits.maxDepth ≤ limits'.maxDepth
  maxBlobLength : limits.maxBlobLength ≤ limits'.maxBlobLength

namespace Decoder

variable {α β : Type} {limits limits' : Limits}

/-- On any bytes, `d` is stopped by a limit or comes to what `d'` comes to. -/
def Narrows (limits : Limits) (d d' : Decoder α) : Prop :=
  ∀ input : Bytes, Agrees limits (d.run input) (d'.run input)

/-- A decoder that asks for no limit comes to the same under all of them. -/
theorem Narrows.refl (d : Decoder α) : Narrows limits d d := fun _ => .same

/-- What a limit stops before anything is read need not be compared. -/
theorem refuse_narrows {violation : Violation} (h : violation.Exceeds limits) (d' : Decoder α) :
    Narrows limits (refuse violation) d' := fun _ => .stopped h

/-- A sequence is stopped where its first part is, or else where its second is.  Behind a first
part that comes to the same, both go on from the same bytes. -/
theorem Narrows.bind {d d' : Decoder α} {f f' : α → Decoder β} (hd : Narrows limits d d')
    (hf : ∀ a, Narrows limits (f a) (f' a)) : Narrows limits (d.bind f) (d'.bind f') := by
  intro input
  have hinput := hd input
  rw [run_bind, run_bind]
  generalize d.run input = r at hinput
  generalize d'.run input = r' at hinput
  cases hinput with
  | stopped h => exact .stopped h
  | same =>
    cases r with
    | ok a rest => exact hf a rest
    | error e rest => exact .same

/-! ## Fields -/

/-- A line that is not too long has the same reading under a higher limit. -/
theorem line_narrows (h : limits.Le limits') :
    Narrows limits (line limits.maxBlobLength) (line limits'.maxBlobLength) := by
  intro input
  have hle := h.maxBlobLength
  obtain ⟨result, hreading⟩ := exists_lineReading limits.maxBlobLength input
  rw [hreading.run_eq]
  -- but for a line that is too long, what is read in a window is read in a wider one
  cases hreading with
  | text hlf hlimit =>
    rw [(LineReading.text hlf (Nat.le_trans hlimit hle)).run_eq]
    exact .same
  | missingCrlf hlf hwindow hcr =>
    rw [(LineReading.missingCrlf hlf (by omega) hcr).run_eq]
    exact .same
  | tooLong => exact .stopped (.length (by omega))
  | cutShort hlf hwindow =>
    rw [(LineReading.cutShort hlf (by omega)).run_eq]
    exact .same

/-- A length that is refused under the narrow limits alone is refused with the limit named. -/
theorem checkLength_narrows (h : limits.Le limits') (length : Nat) :
    Narrows limits (checkLength limits.maxBlobLength length)
      (checkLength limits'.maxBlobLength length) := by
  rcases Nat.lt_or_ge limits.maxBlobLength length with hlt | hle
  · rw [checkLength, if_pos hlt]
    exact refuse_narrows (.length hlt) _
  · rw [checkLength, if_neg (Nat.not_lt_of_le hle), checkLength,
      if_neg (Nat.not_lt_of_le (Nat.le_trans hle h.maxBlobLength))]
    exact .refl _

/-- Fragments are refused at the first check that differs, in front of the payload that it is about.
-/
theorem fragmentsFrom_narrows (h : limits.Le limits') (headerRounds rounds : Nat)
    (collected : Bytes) :
    Narrows limits (fragmentsFrom limits.maxBlobLength headerRounds rounds collected)
      (fragmentsFrom limits'.maxBlobLength headerRounds rounds collected) := by
  induction rounds generalizing collected with
  | zero => exact .refl _
  | succ rounds ih =>
    refine (Narrows.refl (expect fragmentMark)).bind fun _ => ?_
    refine (Narrows.refl (header headerRounds)).bind fun header => ?_
    cases header with
    | streamed => exact .refl _
    | number n =>
      dsimp only
      split
      · exact .refl _
      split
      · exact .refl _
      -- up to here neither reader has looked at its limit
      · refine (checkLength_narrows h _).bind fun _ => ?_
        exact (Narrows.refl (Decoder.payload _)).bind fun fragment => ih _

/-- A blob differs in its checks and in nothing else. -/
theorem blob_narrows (h : limits.Le limits') (rounds : Nat) :
    Narrows limits (blob limits.maxBlobLength rounds) (blob limits'.maxBlobLength rounds) := by
  refine (Narrows.refl (header rounds)).bind fun header => ?_
  cases header with
  | streamed =>
    exact (fragmentsFrom_narrows h rounds rounds []).bind fun bytes => .refl _
  | number n =>
    dsimp only
    split
    · exact .refl _
    · exact (checkLength_narrows h _).bind fun _ => .refl _

/-! ## Units -/

section Elements

variable {element element' : Decoder Value}

/-- Elements by count differ where one of them does. -/
theorem elementsFrom_narrows (helement : Narrows limits element element') (count : Nat)
    (read : List Value) :
    Narrows limits (elementsFrom element count read) (elementsFrom element' count read) := by
  induction count generalizing read with
  | zero => exact .refl _
  | succ count ih => exact helement.bind fun value => ih (value :: read)

/-- So do elements up to the end of a stream. -/
theorem elementsToEnd_narrows (helement : Narrows limits element element') (rounds : Nat)
    (read : List Value) :
    Narrows limits (elementsToEnd element rounds read) (elementsToEnd element' rounds read) := by
  induction rounds generalizing read with
  | zero => exact .refl _
  | succ rounds ih =>
    refine helement.bind fun value => ?_
    split
    · exact .refl _
    · exact ih (value :: read)

/-- The header of an aggregate knows no limit, so aggregates differ in their elements alone. -/
theorem aggregate_narrows (helement : Narrows limits element element') (perEntry rounds : Nat) :
    Narrows limits (aggregate perEntry rounds element) (aggregate perEntry rounds element') := by
  refine (Narrows.refl (header rounds)).bind fun header => ?_
  cases header with
  | number n =>
    dsimp only
    split
    · exact .refl _
    · exact (elementsFrom_narrows helement _ []).bind fun items => .refl _
  | streamed => exact (elementsToEnd_narrows helement rounds []).bind fun items => .refl _

end Elements

/-- Where one level more is allowed under the limits, one is under the higher limits, and
readers of elements compare. -/
inductive ElementsNarrow (limits : Limits) :
    (element? element?' : Option (Thunk (Decoder Value))) → Prop
  | none {element?' : Option (Thunk (Decoder Value))} : ElementsNarrow limits none element?'
  | some {element element' : Thunk (Decoder Value)} (h : Narrows limits element.get element'.get) :
    ElementsNarrow limits (some element) (some element')

variable {element? element?' : Option (Thunk (Decoder Value))}

/-- A body differs in its length, in its elements, or in whether elements are allowed at all. -/
theorem body_narrows (h : limits.Le limits') (helements : ElementsNarrow limits element? element?')
    (rounds : Nat) (kind : Kind) :
    Narrows limits (body limits rounds element? kind) (body limits' rounds element?' kind) := by
  unfold body
  split
  · exact (line_narrows h).bind fun text => .refl _
  · exact (blob_narrows h rounds).bind fun bytes? => .refl _
  · exact .refl _
  · exact .refl _
  · exact .refl _
  · cases helements with
    | none => exact refuse_narrows .depth _
    | some helement => exact aggregate_narrows helement _ rounds

/-- Attributes units differ as the value behind them does, so a unit differs where the first of its
bodies does. -/
theorem unitBehind_narrows (h : limits.Le limits')
    (helements : ElementsNarrow limits element? element?') (bodyRounds rounds : Nat)
    (pending : Option Value) :
    Narrows limits (unitBehind limits bodyRounds element? rounds pending)
      (unitBehind limits' bodyRounds element?' rounds pending) := by
  induction rounds generalizing pending with
  | zero => exact .refl _
  | succ rounds ih =>
    refine (Narrows.refl nextByte).bind fun b => ?_
    split
    · exact .refl _
    refine (body_narrows h helements bodyRounds _).bind fun data => ?_
    split
    · exact ih _
    · exact .refl _

/-- A unit is stopped by a limit, or is the same unit where more levels are left.  By induction
on the levels: where the lower limit leaves none, elements are refused for their depth. -/
theorem unit_narrows (h : limits.Le limits') (rounds : Nat) {levels levels' : Nat}
    (hlevels : levels ≤ levels') :
    Narrows limits (unit limits rounds levels) (unit limits' rounds levels') := by
  induction levels generalizing levels' with
  | zero =>
    cases levels' with
    | zero => exact unitBehind_narrows h .none rounds rounds none
    | succ levels' => exact unitBehind_narrows h .none rounds rounds none
  | succ levels ih =>
    cases levels' with
    | zero => exact absurd hlevels (Nat.not_succ_le_zero levels)
    | succ levels' =>
      refine unitBehind_narrows h (.some ?_) rounds rounds none
      exact ih (Nat.le_of_succ_le_succ hlevels)

end Decoder

/-- Decoding is stopped by a limit, or comes to what it comes to under higher limits. -/
theorem decode_narrows {limits limits' : Limits} (h : limits.Le limits') (input : Bytes) :
    Agrees limits (decode limits input) (decode limits' input) :=
  Decoder.unit_narrows h (input.length + 1) h.maxDepth input

/-- Monotony: **raising the limits changes nothing but violations of the limits.**  Either
decoding under the lower limits is refused for its depth or for the length of a blob, or
both sets of limits give the same value, violation or early end, and leave the same bytes. -/
theorem decode_eq_of_le {limits limits' : Limits} (hdepth : limits.maxDepth ≤ limits'.maxDepth)
    (hlength : limits.maxBlobLength ≤ limits'.maxBlobLength) (input : Bytes) :
    (∃ rest, decode limits input = .error (.violation (.nestingTooDeep limits.maxDepth)) rest) ∨
      (∃ length rest, limits.maxBlobLength < length ∧ decode limits input =
        .error (.violation (.blobTooLarge length limits.maxBlobLength)) rest) ∨
      decode limits input = decode limits' input := by
  have hinput := decode_narrows ⟨hdepth, hlength⟩ input
  generalize decode limits input = r at hinput ⊢
  cases hinput with
  | stopped h =>
    cases h with
    | depth => exact .inl ⟨_, rfl⟩
    | length h => exact .inr (.inl ⟨_, _, h, rfl⟩)
  | same => exact .inr (.inr rfl)

/-- An attributes unit with an array in it, in front of a line of four bytes. -/
def crowded : Bytes := ascii "|1\r\n+a\r\n*0\r\n+abcd\r\n".toList

/-- With a level or a byte less the limits stop it, and with more nothing changes. -/
theorem decode_crowded :
    decode ⟨1, 4⟩ crowded =
        .error (.violation (.nestingTooDeep 1)) (ascii "0\r\n+abcd\r\n".toList) ∧
      decode ⟨2, 3⟩ crowded = .error (.violation (.blobTooLarge 5 3)) [lf] ∧
      (∃ value, decode ⟨2, 4⟩ crowded = .ok value []) ∧
      decode ⟨2, 4⟩ crowded = decode ⟨3, 5⟩ crowded := by
  have hok : decode ⟨2, 4⟩ crowded = .ok _ [] := rfl
  have hdepth : (⟨2, 4⟩ : Limits).maxDepth ≤ (⟨3, 5⟩ : Limits).maxDepth := by decide
  have hlength : (⟨2, 4⟩ : Limits).maxBlobLength ≤ (⟨3, 5⟩ : Limits).maxBlobLength := by decide
  refine ⟨rfl, rfl, ⟨_, hok⟩, ?_⟩
  rcases decode_eq_of_le hdepth hlength crowded with ⟨rest, h⟩ | ⟨length, rest, -, h⟩ | h
  · rw [hok] at h
    cases h
  · rw [hok] at h
    cases h
  · exact h

end RespCodec
