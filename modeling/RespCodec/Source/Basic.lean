/-
# Where bytes are read from

A decoder asks a source for two things: the next byte, and a span of bytes
taken at once, which is a line up to a limit or a payload of known length.  A
source that fails says why and stays usable, with whatever it has already
given out gone.

The simplest source is a list of bytes.  It fails only where it ends, and then
it has been used up.
-/

import RespCodec.Error

namespace RespCodec

/-- A run of bytes to be taken at once. -/
inductive Span where
  /-- All bytes through the first line feed, but no more than `limit`. -/
  | line (limit : Nat)
  /-- Exactly `length` bytes. -/
  | payload (length : Nat)
  deriving DecidableEq

namespace Span

/-- How many bytes the span takes of an input that starts with these.  A line
without a line feed in them wants one byte more than there are. -/
def extent : Span → Bytes → Nat
  | line limit, bytes => min limit (bytes.findIdx (· == lf) + 1)
  | payload length, _ => length

/-- What is still wanted of the span after `n` bytes without its end. -/
def after : Span → Nat → Span
  | line limit, n => line (limit - n)
  | payload length, n => payload (length - n)

/-- The error of an input that ends inside the span. -/
def cutShort : Span → StreamError
  | line _ => .endOfStream
  | payload _ => .payloadCutShort

end Span

/-- A source of bytes with states `σ`. -/
class ByteSource (σ : Type) where
  /-- How many bytes the source can still give. -/
  size : σ → Nat
  /-- Take one byte. -/
  byte : EStateM StreamError σ UInt8
  /-- Take a span of bytes. -/
  span : Span → EStateM StreamError σ Bytes

namespace Bytes

/-- The first byte of a list that has one. -/
def takeByte : EStateM StreamError Bytes UInt8
  | [] => .error .endOfStream []
  | b :: rest => .ok b rest

/-- The span at the head of a list that is long enough; a shorter list is used up. -/
def takeSpan (span : Span) : EStateM StreamError Bytes Bytes := fun bytes =>
  let n := span.extent bytes
  let taken := bytes.take n
  if taken.length = n then .ok taken (bytes.drop n) else .error span.cutShort []

/-- A span is taken from a list that is long enough. -/
theorem takeSpan_of_le {span : Span} {bytes : Bytes} (h : span.extent bytes ≤ bytes.length) :
    takeSpan span bytes =
      .ok (bytes.take (span.extent bytes)) (bytes.drop (span.extent bytes)) := by
  simp only [takeSpan, List.length_take, Nat.min_eq_left h, if_true]

/-- A list that is too short is used up. -/
theorem takeSpan_of_lt {span : Span} {bytes : Bytes} (h : bytes.length < span.extent bytes) :
    takeSpan span bytes = .error span.cutShort [] := by
  have hne : ¬min (span.extent bytes) bytes.length = span.extent bytes := by omega
  simp only [takeSpan, List.length_take, if_neg hne]

end Bytes

/-- A list of bytes gives them in order. -/
instance : ByteSource Bytes where
  size := List.length
  byte := Bytes.takeByte
  span := Bytes.takeSpan

end RespCodec
