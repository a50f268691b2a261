/-
# Decoders

A decoder is a program that reads: it is finished, it has failed, or it asks
for a byte or a span and goes on with the answer.  It is a tree of such steps,
so what a decoder does can be followed step by step, apart from the source that
it will run on.  `Decoder.run` runs it on any source; a failure of the source
ends the run.

Decoders form a lawful monad, and `run_bind` says that one decoder after the
other runs as the first run followed by the second.
-/

import RespCodec.Source.Basic

namespace RespCodec

/-- A program that reads bytes and results in an `α`. -/
inductive Decoder (α : Type) where
  | done (result : α)
  | fail (error : Error)
  | byte (next : UInt8 → Decoder α)
  | span (span : Span) (next : Bytes → Decoder α)

namespace Decoder

variable {α β σ : Type}

/-- One decoder, then another that depends on its result. -/
def bind : Decoder α → (α → Decoder β) → Decoder β
  | done a, f => f a
  | fail e, _ => fail e
  | byte next, f => byte fun b => (next b).bind f
  | span s next, f => span s fun bytes => (next bytes).bind f

instance : Monad Decoder where
  pure := done
  bind := bind

/-- Read a byte. -/
def nextByte : Decoder UInt8 := byte done

/-- Read a span. -/
def take (s : Span) : Decoder Bytes := span s done

/-- Refuse what was read. -/
def refuse (violation : Violation) : Decoder α := fail (.violation violation)

/-- Run a decoder on a source.  The state of the source is kept on failure. -/
def run [ByteSource σ] : Decoder α → EStateM Error σ α
  | done a, s => .ok a s
  | fail e, s => .error e s
  | byte next, s =>
    match ByteSource.byte s with
    | .ok b s => run (next b) s
    | .error e s => .error (.stream e) s
  | span wanted next, s =>
    match ByteSource.span wanted s with
    | .ok bytes s => run (next bytes) s
    | .error e s => .error (.stream e) s

/-- The result of a monadic program is a decoder that is finished, so that `simp` meets one form
only. -/
@[simp] theorem pure_eq_done (a : α) : (pure a : Decoder α) = done a := rfl

/-- Likewise a monadic sequence is `Decoder.bind`, on which the lemmas are stated. -/
@[simp] theorem bind_eq (d : Decoder α) (f : α → Decoder β) : (d >>= f) = d.bind f := rfl

/-- To go on by finishing changes nothing. -/
@[simp] theorem bind_done (d : Decoder α) : d.bind done = d := by
  induction d with
  | done | fail => rfl
  | byte next ih => simp [bind, ih]
  | span s next ih => simp [bind, ih]

/-- How a chain of decoders is bracketed does not matter, as each is followed to its leaves first.
-/
theorem bind_assoc {γ : Type} (d : Decoder α) (f : α → Decoder β) (g : β → Decoder γ) :
    (d.bind f).bind g = d.bind fun a => (f a).bind g := by
  induction d with
  | done | fail => rfl
  | byte next ih => simp [bind, ih]
  | span s next ih => simp [bind, ih]

instance : LawfulMonad Decoder := LawfulMonad.mk' Decoder
  (fun d => bind_done d) (fun _ _ => rfl) (fun d f g => bind_assoc d f g)

/-- Sequencing: **the second decoder runs on what the first one left,** and not
at all if that failed. -/
theorem run_bind [ByteSource σ] (d : Decoder α) (f : α → Decoder β) (s : σ) :
    (d.bind f).run s = match d.run s with
      | .ok a s => (f a).run s
      | .error e s => .error e s := by
  induction d generalizing s with
  | done | fail => rfl
  | byte next ih =>
    simp only [bind, run]
    split
    · exact ih _ _
    · rfl
  | span wanted next ih =>
    simp only [bind, run]
    split
    · exact ih _ _
    · rfl

end Decoder
end RespCodec
