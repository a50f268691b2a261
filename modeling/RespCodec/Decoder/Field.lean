/-
# The fields of a unit

The readers that every unit is made of:

| field | on the wire |
| --- | --- |
| terminator | `CR LF` |
| header | a sign if negative, digits, `CR LF`; or `? CR LF` where the length is left open |
| line | content without a line feed, `CR LF` |
| payload | as many bytes as its header says, `CR LF` |
| fragments | `;` header payload, repeated; `;0 CR LF` at the end |

Readers that loop count their rounds.  Each round reads at least one byte, so
with more rounds than the source has bytes the source ends first; a loop that
has used up its rounds therefore reports the end of the stream.
-/

import RespCodec.Config
import RespCodec.Decimal
import RespCodec.Decoder.Basic

namespace RespCodec
namespace Decoder

/-- The byte before each fragment of a blob. -/
def fragmentMark : UInt8 := ';'.toUInt8

/-- The byte that stands for a length not known yet. -/
def streamedMark : UInt8 := '?'.toUInt8

/-- The sign of a negative number. -/
def minus : UInt8 := '-'.toUInt8

/-- No rounds are left. -/
def outOfRounds {α : Type} : Decoder α := fail (.stream .endOfStream)

/-- Read one byte that can only be `expected`. -/
def expect (expected : UInt8) : Decoder Unit := do
  let found ← nextByte
  if found = expected then return () else refuse (.unexpectedByte expected found)

/-- Read a terminator. -/
def terminator : Decoder Unit := do
  expect cr
  expect lf

/-- A length, a count or a number. -/
inductive Header where
  | number (n : Int64)
  /-- The length is left open. -/
  | streamed
  deriving DecidableEq

/-- A number of which only the head has been read. -/
structure Numeral where
  negative : Bool
  /-- The value of the digits so far, with the sign. -/
  value : Int64
  /-- How many digits there were. -/
  digits : Nat

namespace Numeral

/-- Nothing has been read. -/
def start : Numeral := ⟨false, 0, 0⟩

/-- No sign and no digit have been read. -/
def isStart (numeral : Numeral) : Bool := !numeral.negative && numeral.digits == 0

/-- An integer as a 64-bit number, unless it overflows. -/
def checked (n : Int) : Option Int64 :=
  if -0x8000000000000000 ≤ n ∧ n ≤ 0x7fffffffffffffff then some (.ofInt n) else none

/-- One more digit, in two checked steps.  The value moves away from zero toward the
sign, as there is one negative number more than there are positive ones. -/
def push? (numeral : Numeral) (digit : Nat) : Option Numeral := do
  let scaled ← checked (numeral.value.toInt * 10)
  let value ← checked (if numeral.negative then scaled.toInt - digit else scaled.toInt + digit)
  return { numeral with value, digits := numeral.digits + 1 }

/-- The number, if it has a digit. -/
def value? (numeral : Numeral) : Option Int64 :=
  if numeral.digits = 0 then none else some numeral.value

end Numeral

/-- Read the rest of a header whose head is `numeral`. -/
def headerFrom : (rounds : Nat) → Numeral → Decoder Header
  | 0, _ => outOfRounds
  | rounds + 1, numeral => do
    let b ← nextByte
    match Decimal.digit? b with
    | some digit =>
      match numeral.push? digit with
      | some numeral => headerFrom rounds numeral
      | none => refuse .integerOverflow
    | none =>
      if b = cr then
        expect lf
        match numeral.value? with
        | some n => return .number n
        | none => refuse .emptyNumber
      else if b = minus ∧ numeral.isStart then
        headerFrom rounds { numeral with negative := true }
      else if b = streamedMark ∧ numeral.isStart then
        terminator
        return .streamed
      else refuse (.unexpectedNumberByte b)

/-- Read a header. -/
def header (rounds : Nat) : Decoder Header := headerFrom rounds .start

/-- Read a header that has to be a number. -/
def number (rounds : Nat) (marker : UInt8) : Decoder Int64 := do
  match ← header rounds with
  | .number n => return n
  | .streamed => refuse (.unexpectedStreamedLength marker)

/-- Read a line of at most `limit` bytes, and give it without its terminator. -/
def line (limit : Nat) : Decoder Bytes := do
  let text ← take (.line (limit + 2))
  if text.getLast? ≠ some lf then refuse (.blobTooLarge text.length limit)
  else if text.dropLast.getLast? ≠ some cr then refuse .missingCrlf
  else return text.dropLast.dropLast

/-- Refuse a blob that is longer than allowed. -/
def checkLength (limit length : Nat) : Decoder Unit :=
  if limit < length then refuse (.blobTooLarge length limit) else return ()

/-- Read a payload of `length` bytes and its terminator. -/
def payload (length : Nat) : Decoder Bytes := do
  let bytes ← take (.payload length)
  terminator
  return bytes

/-- Read fragments behind those in `collected`, and join all. -/
def fragmentsFrom (limit headerRounds : Nat) : (rounds : Nat) → (collected : Bytes) →
    Decoder Bytes
  | 0, _ => outOfRounds
  | rounds + 1, collected => do
    expect fragmentMark
    match ← header headerRounds with
    | .streamed => refuse (.unexpectedStreamedLength fragmentMark)
    | .number n =>
      if n < 0 then refuse (.unexpectedNumberByte minus)
      else if n = 0 then return collected
      else
        let length := n.toInt.toNat
        checkLength limit (collected.length + length)
        let fragment ← payload length
        fragmentsFrom limit headerRounds rounds (collected ++ fragment)

/-- Read the bytes of a blob.  A negative length says that there is no blob. -/
def blob (limit rounds : Nat) : Decoder (Option Bytes) := do
  match ← header rounds with
  | .streamed => return some (← fragmentsFrom limit rounds rounds [])
  | .number n =>
    if n < 0 then return none
    else
      let length := n.toInt.toNat
      checkLength limit length
      return some (← payload length)

end Decoder
end RespCodec
