/-
# Writing through a buffer

Small writes are held back and sent together.  Bytes that fit with room to
spare are only held back.  Otherwise the buffer is drained first, unless the
bytes just fill it, and bytes as long as the whole buffer go to the stream
directly.  Bytes that a failed drain did not get rid of stay in the buffer, in
front of what is written next.
-/

import RespCodec.Sink.Basic

namespace RespCodec

/-- A sink behind a buffer. -/
structure BufferedSink where
  capacity : Nat
  /-- The bytes held back. -/
  buffer : Bytes := []
  sink : Sink
  deriving DecidableEq

namespace BufferedSink

/-- How many more bytes can be held back. -/
def spare (buffered : BufferedSink) : Nat := buffered.capacity - buffered.buffer.length

/-- Do something with the sink itself. -/
def onSink {α : Type} (action : EStateM StreamError Sink α) :
    EStateM StreamError BufferedSink α := fun buffered =>
  match action buffered.sink with
  | .ok a sink => .ok a { buffered with sink }
  | .error e sink => .error e { buffered with sink }

/-- Send the bytes held back, and keep those that were not accepted. -/
def drain : EStateM StreamError BufferedSink Unit := fun buffered =>
  match buffered.sink.offer .drainRefused buffered.buffer with
  | ⟨unsent, none, sink⟩ => .ok () { buffered with buffer := unsent, sink }
  | ⟨unsent, some e, sink⟩ => .error e { buffered with buffer := unsent, sink }

/-- Hold bytes back. -/
def hold (bytes : Bytes) : EStateM StreamError BufferedSink Unit :=
  modify fun buffered => { buffered with buffer := buffered.buffer ++ bytes }

/-- Write all of the bytes, now or later. -/
def writeAll (bytes : Bytes) : EStateM StreamError BufferedSink Unit := do
  let spare := (← get).spare
  if bytes.length < spare then hold bytes
  else
    if spare < bytes.length then drain
    if (← get).capacity ≤ bytes.length then onSink (Sink.writeAll bytes)
    else hold bytes

/-- Drain the buffer and flush the stream. -/
def flush : EStateM StreamError BufferedSink Unit := do
  drain
  onSink Sink.flush

/-- Drain the buffer for the last time.  A failure is reported, after one more
attempt of which the outcome does not matter. -/
def close : EStateM StreamError BufferedSink Unit := fun buffered =>
  match drain buffered with
  | .ok () buffered => .ok () buffered
  | .error e buffered =>
    match drain buffered with
    | .ok () buffered => .error e buffered
    | .error _ buffered => .error e buffered

end BufferedSink
end RespCodec
