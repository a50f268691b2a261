/-
# Where bytes are written to

A sink is the stream towards a peer.  It keeps all the bytes it has accepted
and counts how often it was flushed.  How it answers is a script: each write
takes one step of it and is accepted in part, or fails; after its end every
write is accepted whole.  Flushes have a script of their own.

`Sink.offer` writes bytes until all are accepted or a write fails, starting over
at every interruption, and says what was not accepted; nothing is lost or made
up on the way (`Sink.written_offer`).
-/

import RespCodec.Error

namespace RespCodec

/-- How a sink answers one write. -/
inductive Acceptance where
  /-- At most this many bytes are taken. -/
  | accept (most : Nat)
  | fault (fault : Fault)
  deriving DecidableEq

/-- A stream towards a peer. -/
structure Sink where
  /-- All bytes accepted so far. -/
  written : Bytes := []
  /-- How the next writes are answered. -/
  acceptances : List Acceptance := []
  /-- How often the stream was flushed, failures included. -/
  flushes : Nat := 0
  /-- How the next flushes are answered. -/
  flushScript : List (Option Fault) := []
  deriving DecidableEq

/-- What became of bytes that were offered to a sink. -/
structure Offer where
  /-- The bytes that were not accepted. -/
  unsent : Bytes
  /-- Why not. -/
  failure : Option StreamError
  sink : Sink

namespace Sink

/-- Offer bytes to a sink that answers as scripted. -/
def offerFrom (refusal : StreamError) : List Acceptance → Bytes → Sink → Offer
  | script, [], sink => ⟨[], none, { sink with acceptances := script }⟩
  | [], b :: bytes, sink =>
    ⟨[], none, { sink with written := sink.written ++ b :: bytes, acceptances := [] }⟩
  | .accept most :: script, b :: bytes, sink =>
    if most = 0 then ⟨b :: bytes, some refusal, { sink with acceptances := script }⟩
    else
      offerFrom refusal script ((b :: bytes).drop most)
        { sink with written := sink.written ++ (b :: bytes).take most }
  | .fault f :: script, b :: bytes, sink =>
    if f.isInterruption then offerFrom refusal script (b :: bytes) sink
    else ⟨b :: bytes, some (.fault f), { sink with acceptances := script }⟩

/-- Offer bytes until all are accepted or a write fails.  A write that takes
nothing fails with `refusal`. -/
def offer (refusal : StreamError) (bytes : Bytes) (sink : Sink) : Offer :=
  offerFrom refusal sink.acceptances bytes sink

/-- What was written and what is left to write are what there was, whatever the stream answers. -/
theorem written_offerFrom (refusal : StreamError) (script : List Acceptance) (bytes : Bytes)
    (sink : Sink) :
    (offerFrom refusal script bytes sink).sink.written ++
      (offerFrom refusal script bytes sink).unsent = sink.written ++ bytes := by
  fun_induction offerFrom refusal script bytes sink with
  | case1 | case2 | case3 | case6 => simp
  | case4 sink most script b bytes _ ih => rw [ih]; simp
  | case5 sink f script b bytes _ ih => exact ih

/-- Conservation: **no byte is lost or made up.**  What was accepted, with what
was not, is what was offered. -/
theorem written_offer (refusal : StreamError) (bytes : Bytes) (sink : Sink) :
    (sink.offer refusal bytes).sink.written ++ (sink.offer refusal bytes).unsent =
      sink.written ++ bytes :=
  written_offerFrom refusal sink.acceptances bytes sink

/-- Without a failure nothing is left to write. -/
theorem unsent_offerFrom {refusal : StreamError} {script : List Acceptance} {bytes : Bytes}
    {sink : Sink} (h : (offerFrom refusal script bytes sink).failure = none) :
    (offerFrom refusal script bytes sink).unsent = [] := by
  fun_induction offerFrom refusal script bytes sink with
  | case1 | case2 => rfl
  | case3 | case6 => cases h
  | case4 sink most script b bytes _ ih => exact ih h
  | case5 sink f script b bytes _ ih => exact ih h

/-- Write all of the bytes. -/
def writeAll (bytes : Bytes) : EStateM StreamError Sink Unit := fun sink =>
  match sink.offer .writeRefused bytes with
  | ⟨_, none, sink⟩ => .ok () sink
  | ⟨_, some e, sink⟩ => .error e sink

/-- A write that succeeds has written everything. -/
theorem written_of_writeAll_eq_ok {bytes : Bytes} {sink left : Sink}
    (h : writeAll bytes sink = .ok () left) : left.written = sink.written ++ bytes := by
  have hwritten := written_offer .writeRefused bytes sink
  unfold writeAll at h
  split at h
  · rename_i unsent sink' hoffer
    cases h
    have hfailure : (sink.offer .writeRefused bytes).failure = none := by rw [hoffer]
    have hunsent : (sink.offer .writeRefused bytes).unsent = [] := unsent_offerFrom hfailure
    rwa [hunsent, List.append_nil, hoffer] at hwritten
  · cases h

/-- A sink that answers no write in a way of its own takes everything. -/
theorem exists_writeAll_eq_ok {bytes : Bytes} {sink : Sink} (h : sink.acceptances = []) :
    ∃ left, writeAll bytes sink = .ok () left := by
  unfold writeAll offer
  rw [h]
  cases bytes with
  | nil => exact ⟨_, rfl⟩
  | cons b bytes => exact ⟨_, rfl⟩

/-- Flush the stream. -/
def flush : EStateM StreamError Sink Unit := fun sink =>
  let flushed := { sink with flushes := sink.flushes + 1, flushScript := sink.flushScript.tail }
  match sink.flushScript.head? with
  | some (some f) => .error (.fault f) flushed
  | _ => .ok () flushed

end Sink
end RespCodec
