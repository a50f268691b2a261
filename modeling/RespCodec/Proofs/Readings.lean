/-
# Values read one after another

A decoder keeps nothing between two calls but the source it reads from.
`readings` calls it again and again, going on after errors, and notes what each
call came to and how many bytes it took.

A decoder asks its source for bytes and spans, and for nothing else.  Sources that
give the same answers, whatever they are made of, lead it through the same steps
(`Decoder.run_alike`), so that calls on them have the same readings
(`readings_alike`).
-/

import RespCodec.Decoder.Unit

namespace RespCodec

variable {ε σ τ α β : Type}

/-- What a call came to. -/
def outcome : EStateM.Result ε σ α → Except ε α
  | .ok a _ => .ok a
  | .error e _ => .error e

/-- The state that a call left, whatever it came to. -/
def stateAfter : EStateM.Result ε σ α → σ
  | .ok _ s => s
  | .error _ s => s

/-- What a call for a value came to, and how many bytes it took. -/
structure Reading where
  outcome : Except Error Value
  taken : Nat

/-- Calls for a value, each from where the one before stopped, and the source
that they leave. -/
def readings [ByteSource σ] (limits : Limits) : (count : Nat) → σ → List Reading × σ
  | 0, s => ([], s)
  | count + 1, s =>
    let result := decode limits s
    let others := readings limits count (stateAfter result)
    (⟨outcome result, ByteSource.size s - ByteSource.size (stateAfter result)⟩ :: others.1,
      others.2)

/-- A call that succeeds is followed by the calls on what it left. -/
theorem readings_succ_of_ok [ByteSource σ] {limits : Limits} {count : Nat} {s t : σ}
    {value : Value} (h : decode limits s = .ok value t) :
    readings limits (count + 1) s =
      (⟨.ok value, ByteSource.size s - ByteSource.size t⟩ :: (readings limits count t).1,
        (readings limits count t).2) := by
  rw [readings, h]
  rfl

/-! ## Steps of a run -/

namespace Decoder

/-- The run of a decoder that was waiting for an answer of its source. -/
def resume [ByteSource σ] (next : β → Decoder α) :
    EStateM.Result StreamError σ β → EStateM.Result Error σ α
  | .ok b s => (next b).run s
  | .error e s => .error (.stream e) s

/-- A decoder that wants a byte goes on with the answer of its source. -/
theorem run_byte [ByteSource σ] (next : UInt8 → Decoder α) (s : σ) :
    (byte next).run s = resume next (ByteSource.byte s) := by
  rw [run]
  cases ByteSource.byte s <;> rfl

/-- So does one that wants a span. -/
theorem run_span [ByteSource σ] (wanted : Span) (next : Bytes → Decoder α) (s : σ) :
    (span wanted next).run s = resume next (ByteSource.span wanted s) := by
  rw [run]
  cases ByteSource.span wanted s <;> rfl

/-- On a list that is long enough it goes on with the front of the list, and has the rest before
it. -/
theorem run_span_of_le {wanted : Span} {input : Bytes} (h : wanted.extent input ≤ input.length)
    (next : Bytes → Decoder α) :
    (span wanted next).run input =
      (next (input.take (wanted.extent input))).run (input.drop (wanted.extent input)) := by
  have htake : ByteSource.span wanted input = .ok _ _ := Bytes.takeSpan_of_le h
  rw [run_span, htake, resume]

/-- A list that is too short ends the run, and nothing is left of it. -/
theorem run_span_of_lt {wanted : Span} {input : Bytes} (h : input.length < wanted.extent input)
    (next : Bytes → Decoder α) :
    (span wanted next).run input = .error (.stream wanted.cutShort) [] := by
  have hcut : ByteSource.span wanted input = .error wanted.cutShort [] := Bytes.takeSpan_of_lt h
  rw [run_span, hcut, resume]

end Decoder

/-! ## Sources that give the same answers -/

/-- Two results agree, and the states that they leave are related. -/
inductive Alike (R : σ → τ → Prop) : EStateM.Result ε σ α → EStateM.Result ε τ α → Prop
  | ok {a : α} {s : σ} {t : τ} (h : R s t) : Alike R (.ok a s) (.ok a t)
  | error {e : ε} {s : σ} {t : τ} (h : R s t) : Alike R (.error e s) (.error e t)

/-- Runs that are alike come to the same outcome. -/
theorem Alike.outcome_eq {R : σ → τ → Prop} {r : EStateM.Result ε σ α} {r' : EStateM.Result ε τ α}
    (h : Alike R r r') : outcome r = outcome r' := by
  cases h <;> rfl

/-- And they leave sources that are related, after a failure as well. -/
theorem Alike.stateAfter {R : σ → τ → Prop} {r : EStateM.Result ε σ α}
    {r' : EStateM.Result ε τ α} (h : Alike R r r') : R (stateAfter r) (stateAfter r') := by
  cases h <;> assumption

/-- Related sources have the same size, and give the same answers. -/
structure Indistinguishable [ByteSource σ] [ByteSource τ] (R : σ → τ → Prop) : Prop where
  size : ∀ {s t}, R s t → ByteSource.size s = ByteSource.size t
  byte : ∀ {s t}, R s t → Alike R (ByteSource.byte s) (ByteSource.byte t)
  span : ∀ {s t} (wanted : Span), R s t →
    Alike R (ByteSource.span wanted s) (ByteSource.span wanted t)

section Alike

variable [ByteSource σ] [ByteSource τ] {R : σ → τ → Prop}

/-- After the same answers a decoder goes on in the same way. -/
theorem Alike.resume {next : β → Decoder α} {r : EStateM.Result StreamError σ β}
    {r' : EStateM.Result StreamError τ β} (h : Alike R r r')
    (hnext : ∀ b {s t}, R s t → Alike R ((next b).run s) ((next b).run t)) :
    Alike R (Decoder.resume next r) (Decoder.resume next r') := by
  cases h with
  | ok h => exact hnext _ h
  | error h => exact .error h

/-- A decoder does the same on sources that give the same answers.  By induction on the decoder:
after the same answer it goes on with the same decoder, on sources that are related again. -/
theorem Decoder.run_alike (hR : Indistinguishable R) (d : Decoder α) {s : σ} {t : τ}
    (h : R s t) : Alike R (d.run s) (d.run t) := by
  induction d generalizing s t with
  | done a => exact .ok h
  | fail e => exact .error h
  | byte next ih =>
    rw [run_byte, run_byte]
    exact (hR.byte h).resume ih
  | span wanted next ih =>
    rw [run_span, run_span]
    exact (hR.span wanted h).resume ih

/-- Sources that cannot be told apart have the same size, so they are decoded with the same rounds,
and to the same outcome. -/
theorem decode_alike (hR : Indistinguishable R) (limits : Limits) {s : σ} {t : τ} (h : R s t) :
    Alike R (decode limits s) (decode limits t) := by
  unfold decode
  rw [hR.size h]
  exact Decoder.run_alike hR _ h

/-- Calls on sources that give the same answers have the same readings. -/
theorem readings_alike (hR : Indistinguishable R) (limits : Limits) (count : Nat) {s : σ} {t : τ}
    (h : R s t) :
    (readings limits count s).1 = (readings limits count t).1 ∧
      R (readings limits count s).2 (readings limits count t).2 := by
  induction count generalizing s t with
  | zero => exact ⟨rfl, h⟩
  | succ count ih =>
    have hdecode := decode_alike hR limits h
    obtain ⟨hothers, hlast⟩ := ih hdecode.stateAfter
    refine ⟨?_, hlast⟩
    simp only [readings]
    rw [hothers, hdecode.outcome_eq, hR.size h, hR.size hdecode.stateAfter]

end Alike

end RespCodec
