/-
# Captures

A capture is what a peer sent, recorded.  It is decoded value by value until
its end, or until something in it is not a unit; the values before that are
kept.  Each is printed on lines of its own, behind a line for its attributes if
it has some.
-/

import RespCodec.Decoder.Unit
import RespCodec.Value.Display

namespace RespCodec

/-- What was found in a capture. -/
structure Capture where
  /-- The values in front of the first failure, in order. -/
  values : List Value
  /-- Why decoding stopped before the end. -/
  failure : Option Error

namespace Capture

/-- A value in front of a capture. -/
def cons (value : Value) (capture : Capture) : Capture :=
  { capture with values := value :: capture.values }

/-- Decode a capture.  Each value takes at least one byte, so there are no more
rounds than bytes. -/
def read (limits : Limits) : (rounds : Nat) → Bytes → Capture
  | _, [] => ⟨[], none⟩
  | 0, _ => ⟨[], some (.stream .endOfStream)⟩
  | rounds + 1, bytes =>
    match decode limits bytes with
    | .ok value rest => (read limits rounds rest).cons value
    | .error e _ => ⟨[], some e⟩

/-- The values in a capture. -/
def ofBytes (limits : Limits) (bytes : Bytes) : Capture := read limits bytes.length bytes

/-- The lines that show one value. -/
def entry (value : Value) : List Char :=
  (match value.attributes with
    | some unit => "(attributes) ".toList ++ unit.display ++ ['\n']
    | none => []) ++
  value.display ++ ['\n']

/-- The lines that show all values. -/
def transcript (capture : Capture) : List Char := capture.values.flatMap entry

end Capture
end RespCodec
