/-
# Units

A unit is a value on the wire: any number of attributes units, then a marker
and what its form calls for.  Of several attributes units only the last is
kept.  Aggregates hold units in turn; `unit` recurses on the levels of nesting
that are left, and every loop inside a level counts its rounds
(`RespCodec.Decoder.Field`).

Two rules settle what a decoded value is.  A negative length makes a null of
whatever kind announced it, and the unit that ends a streamed aggregate is not
one of its elements.

`decode` reads one unit from a source, with enough rounds for all its bytes.
-/

import RespCodec.Decoder.Field
import RespCodec.Value.Basic

namespace RespCodec
namespace Decoder

/-- Read `count` elements behind those in `read`, last one first. -/
def elementsFrom (element : Decoder Value) : (count : Nat) → (read : List Value) →
    Decoder (List Value)
  | 0, read => return read.reverse
  | count + 1, read => do
    let value ← element
    elementsFrom element count (value :: read)

/-- Read elements behind those in `read`, last one first, up to an end of stream. -/
def elementsToEnd (element : Decoder Value) : (rounds : Nat) → (read : List Value) →
    Decoder (List Value)
  | 0, _ => outOfRounds
  | rounds + 1, read => do
    let value ← element
    if value.kind = .endOfStream then return read.reverse
    else elementsToEnd element rounds (value :: read)

/-- Read an aggregate whose entries are `perEntry` elements each. -/
def aggregate (perEntry rounds : Nat) (element : Decoder Value) : Decoder (Data Value) := do
  match ← header rounds with
  | .number n =>
    if n < 0 then return .null
    else return .elements (← elementsFrom element (n.toInt.toNat * perEntry) [])
  | .streamed =>
    let items ← elementsToEnd element rounds []
    if items.length % perEntry = 0 then return .elements items
    else refuse (.oddMapLength items.length)

/-- Read a truth value. -/
def boolean : Decoder (Data Value) := do
  let b ← nextByte
  if b = 't'.toUInt8 then
    terminator
    return .int 1
  else if b = 'f'.toUInt8 then
    terminator
    return .int 0
  else refuse (.invalidBoolean b)

/-- Read what follows the marker of a kind.  `element?` reads an element where
another level of nesting is allowed. -/
def body (limits : Limits) (rounds : Nat) (element? : Option (Thunk (Decoder Value)))
    (kind : Kind) : Decoder (Data Value) :=
  match kind.form with
  | .line => do return .str (← line limits.maxBlobLength)
  | .blob => do
    match ← blob limits.maxBlobLength rounds with
    | some bytes => return .str bytes
    | none => return .null
  | .integer => do return .int (← number rounds kind.marker)
  | .bare => do
    terminator
    return .null
  | .boolean => boolean
  | .aggregate perEntry =>
    match element? with
    | none => refuse (.nestingTooDeep limits.maxDepth)
    | some element => aggregate perEntry rounds element.get

/-- A null is of kind null, whatever announced it, unless it ends a stream. -/
def settledKind (kind : Kind) (data : Data Value) : Kind :=
  match data with
  | .null => if kind = .endOfStream then .endOfStream else .null
  | _ => kind

/-- Read a unit behind the attributes unit `pending`. -/
def unitBehind (limits : Limits) (bodyRounds : Nat) (element? : Option (Thunk (Decoder Value))) :
    (rounds : Nat) → (pending : Option Value) → Decoder Value
  | 0, _ => outOfRounds
  | rounds + 1, pending => do
    let b ← nextByte
    match Kind.ofMarker? b with
    | none => refuse (.unknownMarker b)
    | some kind =>
      let data ← body limits bodyRounds element? kind
      if kind = .attributes then
        unitBehind limits bodyRounds element? rounds (some (.ofData .attributes data))
      else return ⟨settledKind kind data, data, pending⟩

/-- Read a unit in which aggregates may nest `levels` deep. -/
def unit (limits : Limits) (rounds : Nat) : (levels : Nat) → Decoder Value
  | 0 => unitBehind limits rounds none rounds none
  | levels + 1 =>
    unitBehind limits rounds (some ⟨fun _ => unit limits rounds levels⟩) rounds none

end Decoder

/-- Read one value from a source. -/
def decode {σ : Type} [ByteSource σ] (limits : Limits) : EStateM Error σ Value := fun s =>
  (Decoder.unit limits (ByteSource.size s + 1) limits.maxDepth).run s

end RespCodec
