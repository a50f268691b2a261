/-
# What a decoder asks for

A decoder is a tree of requests, so what it may ask for can be read off the tree, whatever a
source answers.  It asks for no payload longer than a blob may be, and looks for the end of a
line no further than a blob and its terminator (`Decoder.Asks`).

A length that is no number of 64 bits is an overflow, and headers are where lengths are read.
So an overflow is that of a header, which stands at the end of what was taken
(`Decoder.HeaderOverflows`).

Every reader keeps to both (`Decoder.Bounded`), and a sequence does if its parts do.
-/

import RespCodec.Proofs.Refusals

namespace RespCodec

/-- A span that the limits allow. -/
def Span.Allowed (limits : Limits) : Span → Prop
  | payload length => length ≤ limits.maxBlobLength
  | line window => window ≤ limits.maxBlobLength + 2

namespace Decoder

variable {α β : Type} {limits : Limits} {rounds : Nat}

/-- Whatever a source answers, it is asked for allowed spans alone. -/
inductive Asks (limits : Limits) : Decoder α → Prop
  | done (a : α) : Asks limits (done a)
  | fail (e : Error) : Asks limits (fail e)
  | byte {next : UInt8 → Decoder α} (h : ∀ b, Asks limits (next b)) : Asks limits (byte next)
  | span {wanted : Span} {next : Bytes → Decoder α} (hwanted : wanted.Allowed limits)
    (h : ∀ text, Asks limits (next text)) : Asks limits (span wanted next)

/-- A sequence asks for what its parts ask for. -/
theorem Asks.bind {d : Decoder α} {f : α → Decoder β} (hd : Asks limits d)
    (hf : ∀ a, Asks limits (f a)) : Asks limits (d.bind f) := by
  induction hd with
  | done a => exact hf a
  | fail e => exact .fail e
  | byte _ ih => exact .byte ih
  | span hwanted _ ih => exact .span hwanted ih

/-- A header in the input overflows, and `rest` is what it leaves. -/
def HeaderOverflows (rounds : Nat) (input rest : Bytes) : Prop :=
  ∃ before head, input = before ++ head ∧
    (header rounds).run head = .error (.violation .integerOverflow) rest

/-- A decoder asks for what the limits allow, and its overflows are those of headers. -/
structure Bounded (limits : Limits) (rounds : Nat) (d : Decoder α) : Prop where
  asks : Asks limits d
  overflows : ∀ {input rest : Bytes}, d.run input = .error (.violation .integerOverflow) rest →
    HeaderOverflows rounds input rest

/-- A result asks for nothing. -/
theorem bounded_done (a : α) : Bounded limits rounds (done a) := by
  refine ⟨.done a, ?_⟩
  intro input rest h
  cases h

/-- Running out of rounds is not an overflow. -/
theorem bounded_outOfRounds : Bounded limits rounds (outOfRounds : Decoder α) := by
  refine ⟨.fail _, ?_⟩
  intro input rest h
  cases h

/-- A refusal ends the run, so only its violation matters. -/
theorem bounded_refuse {violation : Violation} (h : violation ≠ .integerOverflow) :
    Bounded limits rounds (refuse violation : Decoder α) := by
  refine ⟨.fail _, ?_⟩
  intro input rest hrun
  cases hrun
  exact absurd rfl h

/-- A byte is no span, and its absence no overflow. -/
theorem bounded_nextByte : Bounded limits rounds nextByte := by
  refine ⟨.byte .done, ?_⟩
  intro input rest h
  cases input <;> cases h

/-- A span is asked for once, and a source that cuts it short gives an error of its own. -/
theorem bounded_take {wanted : Span} (h : wanted.Allowed limits) :
    Bounded limits rounds (take wanted) := by
  refine ⟨.span h .done, ?_⟩
  intro input rest hrun
  rw [take, run_span] at hrun
  cases hread : ByteSource.span wanted input <;> rw [hread] at hrun <;> cases hrun

/-- An overflow in the second part of a sequence is found behind what the first part took. -/
theorem Bounded.bind {d : Decoder α} {f : α → Decoder β} (hd : Bounded limits rounds d)
    (hf : ∀ a, Bounded limits rounds (f a)) : Bounded limits rounds (d.bind f) := by
  refine ⟨hd.asks.bind fun a => (hf a).asks, ?_⟩
  intro input rest h
  rw [run_bind] at h
  obtain ⟨taken, htaken⟩ := d.exists_taken input
  cases hrun : d.run input with
  | error e left =>
    rw [hrun] at h
    cases h
    exact hd.overflows hrun
  | ok a left =>
    rw [hrun] at h htaken
    obtain ⟨before, head, rfl, hhead⟩ := (hf a).overflows h
    exact ⟨taken ++ before, head, htaken.trans (List.append_assoc ..).symm, hhead⟩

/-! ## Fields -/

/-- A byte that was not expected is refused as such. -/
theorem bounded_expect (expected : UInt8) : Bounded limits rounds (expect expected) := by
  refine bounded_nextByte.bind fun found => ?_
  split
  · exact bounded_done ()
  · exact bounded_refuse nofun

/-- A terminator is two such bytes. -/
theorem bounded_terminator : Bounded limits rounds terminator :=
  (bounded_expect cr).bind fun _ => bounded_expect lf

/-- A header is read byte by byte. -/
theorem asks_headerFrom (left : Nat) (numeral : Numeral) :
    Asks limits (headerFrom left numeral) := by
  induction left generalizing numeral with
  | zero => exact .fail _
  | succ left ih =>
    refine Asks.bind (.byte .done) fun b => ?_
    split
    · split
      · exact ih _
      · exact .fail _
    split
    · refine (bounded_expect lf : Bounded limits 0 _).asks.bind fun _ => ?_
      split
      · exact .done _
      · exact .fail _
    split
    · exact ih _
    split
    · exact (bounded_terminator : Bounded limits 0 _).asks.bind fun _ => .done _
    · exact .fail _

/-- A header that overflows is one, and there is nothing in front of it. -/
theorem bounded_header : Bounded limits rounds (header rounds) :=
  ⟨asks_headerFrom rounds .start, fun h => ⟨[], _, rfl, h⟩⟩

/-- A number is refused for its header, or because that was left open. -/
theorem bounded_number (marker : UInt8) : Bounded limits rounds (number rounds marker) := by
  refine bounded_header.bind fun header => ?_
  cases header with
  | number n => exact bounded_done n
  | streamed => exact bounded_refuse nofun

/-- The window of a line is the limit and a terminator, which is as far as it may look. -/
theorem bounded_line : Bounded limits rounds (line limits.maxBlobLength) := by
  refine (bounded_take (Nat.le_refl _)).bind fun text => ?_
  split
  · exact bounded_refuse nofun
  split
  · exact bounded_refuse nofun
  · exact bounded_done _

/-- What comes behind a check is bounded if it is for the lengths that pass. -/
theorem bounded_checkLength {length : Nat} {f : Unit → Decoder α}
    (hf : length ≤ limits.maxBlobLength → Bounded limits rounds (f ())) :
    Bounded limits rounds ((checkLength limits.maxBlobLength length).bind f) := by
  unfold checkLength
  split
  · exact bounded_refuse nofun
  · exact hf (Nat.not_lt.1 ‹_›)

/-- A payload within the limit is allowed, and any bytes are accepted for it. -/
theorem bounded_payload {length : Nat} (h : length ≤ limits.maxBlobLength) :
    Bounded limits rounds (Decoder.payload length) := by
  have hallowed : (Span.payload length).Allowed limits := h
  refine (bounded_take hallowed).bind fun bytes => ?_
  exact bounded_terminator.bind fun _ => bounded_done bytes

/-- With what is held a fragment is within the limit, so it is by itself.  By induction on the
rounds, with what is held left open. -/
theorem bounded_fragmentsFrom (left : Nat) (collected : Bytes) :
    Bounded limits rounds (fragmentsFrom limits.maxBlobLength rounds left collected) := by
  induction left generalizing collected with
  | zero => exact bounded_outOfRounds
  | succ left ih =>
    refine (bounded_expect fragmentMark).bind fun _ => ?_
    refine bounded_header.bind fun header => ?_
    cases header with
    | streamed => exact bounded_refuse nofun
    | number n =>
      dsimp only
      split
      · exact bounded_refuse nofun
      split
      · exact bounded_done collected
      -- the check is on what is held and the fragment together
      · refine bounded_checkLength fun htotal => ?_
        refine (bounded_payload (by omega)).bind fun fragment => ?_
        exact ih (collected ++ fragment)

/-- Whether its length is known or not, a blob is checked before it is asked for. -/
theorem bounded_blob : Bounded limits rounds (blob limits.maxBlobLength rounds) := by
  refine bounded_header.bind fun header => ?_
  cases header with
  | streamed => exact (bounded_fragmentsFrom rounds []).bind fun bytes => bounded_done (some bytes)
  | number n =>
    dsimp only
    split
    · exact bounded_done none
    · refine bounded_checkLength fun hlength => ?_
      exact (bounded_payload hlength).bind fun bytes => bounded_done (some bytes)

/-- A truth value is single bytes. -/
theorem bounded_boolean : Bounded limits rounds boolean := by
  refine bounded_nextByte.bind fun b => ?_
  split
  · exact bounded_terminator.bind fun _ => bounded_done _
  split
  · exact bounded_terminator.bind fun _ => bounded_done _
  · exact bounded_refuse nofun

/-! ## Units -/

section Elements

variable {element : Decoder Value}

/-- Elements by count are bounded as each of them is. -/
theorem bounded_elementsFrom (helement : Bounded limits rounds element) (count : Nat)
    (read : List Value) : Bounded limits rounds (elementsFrom element count read) := by
  induction count generalizing read with
  | zero => exact bounded_done _
  | succ count ih => exact helement.bind fun value => ih (value :: read)

/-- So are elements up to the end of a stream. -/
theorem bounded_elementsToEnd (helement : Bounded limits rounds element) (left : Nat)
    (read : List Value) : Bounded limits rounds (elementsToEnd element left read) := by
  induction left generalizing read with
  | zero => exact bounded_outOfRounds
  | succ left ih =>
    refine helement.bind fun value => ?_
    split
    · exact bounded_done _
    · exact ih (value :: read)

/-- An aggregate reads one length, in its header.  The number of its elements follows from that and
is not refused, and an odd number of them is refused as such. -/
theorem bounded_aggregate (helement : Bounded limits rounds element) (perEntry : Nat) :
    Bounded limits rounds (aggregate perEntry rounds element) := by
  refine bounded_header.bind fun header => ?_
  cases header with
  | number n =>
    dsimp only
    split
    · exact bounded_done _
    · exact (bounded_elementsFrom helement _ []).bind fun items => bounded_done _
  | streamed =>
    refine (bounded_elementsToEnd helement rounds []).bind fun items => ?_
    split
    · exact bounded_done _
    · exact bounded_refuse nofun

end Elements

variable {element? : Option (Thunk (Decoder Value))}

/-- Every form of body keeps to the limits, and one that is nested too deep asks for nothing at all.
-/
theorem bounded_body (helements : ∀ element ∈ element?, Bounded limits rounds element.get)
    (kind : Kind) : Bounded limits rounds (body limits rounds element? kind) := by
  unfold body
  split
  · exact bounded_line.bind fun text => bounded_done _
  · refine bounded_blob.bind fun bytes? => ?_
    cases bytes? with
    | none => exact bounded_done _
    | some bytes => exact bounded_done _
  · exact (bounded_number _).bind fun n => bounded_done _
  · exact bounded_terminator.bind fun _ => bounded_done _
  · exact bounded_boolean
  · cases element? with
    | none => exact bounded_refuse nofun
    | some element => exact bounded_aggregate (helements element rfl) _

/-- A unit is bodies one after another, of which the last is its own. -/
theorem bounded_unitBehind (helements : ∀ element ∈ element?, Bounded limits rounds element.get)
    (left : Nat) (pending : Option Value) :
    Bounded limits rounds (unitBehind limits rounds element? left pending) := by
  induction left generalizing pending with
  | zero => exact bounded_outOfRounds
  | succ left ih =>
    refine bounded_nextByte.bind fun b => ?_
    split
    · exact bounded_refuse nofun
    rename_i kind _
    refine (bounded_body helements kind).bind fun data => ?_
    split
    · exact ih _
    · exact bounded_done _

/-- **A unit is read within the limits,** at every level.  By induction on the levels, as
elements are units with a level less. -/
theorem bounded_unit (limits : Limits) (rounds levels : Nat) :
    Bounded limits rounds (unit limits rounds levels) := by
  induction levels with
  | zero => exact bounded_unitBehind (fun _ h => absurd h (Option.not_mem_none _)) rounds none
  | succ levels ih =>
    refine bounded_unitBehind (fun element helement => ?_) rounds none
    obtain rfl := Option.some.inj helement
    exact ih

end Decoder
end RespCodec
