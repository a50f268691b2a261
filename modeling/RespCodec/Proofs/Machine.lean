/-
# Decoding on 64-bit words

Decoders count bytes, digits, elements and levels with natural numbers, which have no end.
Here they are once more, on a machine whose lengths, counts and depths are 64-bit words and
whose operations wrap.

The machine is watched.  It computes each word as a machine does and stops at a trap if that is
not the exact result, and also where a length or a depth is beyond its limit.

| reader | words | limits |
| --- | --- | --- |
| header | one digit more | |
| line | the window, the length less the terminator | |
| blob of known length | the length | the payload to make room for |
| fragments | the length held, with the next one, one fragment more | the length held and the sum |
| aggregate by count | the count, the count times the elements of an entry, one element more | |
| aggregate in a stream | one element more | |
| unit | the depth of its elements | its own depth |

A trap is not an error of the input: a machine that stops has no result at all.
`RespCodec.Proofs.Untrapped` shows that it never does.
-/

import RespCodec.Decoder.Unit

namespace RespCodec

/-- Why a watched machine stops. -/
inductive Trap where
  /-- The exact result of an operation is no word, or not the word computed. -/
  | wrapped (exact : Int)
  /-- A length or a depth is beyond its limit. -/
  | exceeded (n limit : UInt64)
  deriving DecidableEq

/-- A decoder on a machine that may stop at a trap. -/
abbrev Machine := ExceptT Trap Decoder

namespace Machine

open Decoder (Header fragmentMark streamedMark minus)

variable {α : Type}

/-- The limits of a decoder, as words. -/
structure Bounds where
  maxDepth : UInt64
  maxBlobLength : UInt64
  deriving DecidableEq

/-- The limits that the words stand for. -/
def Bounds.limits (bounds : Bounds) : Limits :=
  ⟨bounds.maxDepth.toNat, bounds.maxBlobLength.toNat⟩

/-! ## Watched operations -/

/-- Read with a decoder that computes nothing. -/
def read (d : Decoder α) : Machine α := ExceptT.lift d

/-- Refuse what was read. -/
def refuse (violation : Violation) : Machine α := read (Decoder.refuse violation)

/-- Go on with the computed word if it is the exact result. -/
def watch (exact : Int) (word : UInt64) : Machine UInt64 :=
  if (word.toNat : Int) = exact then return word else throw (.wrapped exact)

/-- A sum of words. -/
def add (a b : UInt64) : Machine UInt64 := watch (a.toNat + b.toNat) (a + b)

/-- A difference of words. -/
def sub (a b : UInt64) : Machine UInt64 := watch (a.toNat - b.toNat) (a - b)

/-- A product of words. -/
def mul (a b : UInt64) : Machine UInt64 := watch (a.toNat * b.toNat) (a * b)

/-- A signed number as a word. -/
def word (n : Int64) : Machine UInt64 := watch n.toInt n.toUInt64

/-- The length of a list as a word. -/
def size (items : List α) : Machine UInt64 := watch items.length items.length.toUInt64

/-- Go on if a limit is kept. -/
def within (limit n : UInt64) : Machine Unit :=
  if limit < n then throw (.exceeded n limit) else return ()

/-! ## Fields -/

/-- A number of which only the head has been read, its digits counted by a word. -/
structure Numeral where
  negative : Bool
  value : Int64
  digits : UInt64

namespace Numeral

/-- Nothing has been read. -/
def start : Numeral := ⟨false, 0, 0⟩

/-- The same with its digits counted by a number. -/
def counted (numeral : Numeral) : Decoder.Numeral :=
  ⟨numeral.negative, numeral.value, numeral.digits.toNat⟩

end Numeral

/-- Read the rest of a header whose head is `numeral`. -/
def headerFrom : (rounds : Nat) → Numeral → Machine Header
  | 0, _ => read Decoder.outOfRounds
  | rounds + 1, numeral => do
    let b ← read Decoder.nextByte
    match Decimal.digit? b with
    | some digit =>
      match numeral.counted.push? digit with
      | some next =>
        let digits ← add numeral.digits 1
        headerFrom rounds ⟨next.negative, next.value, digits⟩
      | none => refuse .integerOverflow
    | none =>
      if b = cr then
        read (Decoder.expect lf)
        match numeral.counted.value? with
        | some n => return .number n
        | none => refuse .emptyNumber
      else if b = minus ∧ numeral.counted.isStart then
        headerFrom rounds { numeral with negative := true }
      else if b = streamedMark ∧ numeral.counted.isStart then
        read Decoder.terminator
        return .streamed
      else refuse (.unexpectedNumberByte b)

/-- Read a header. -/
def header (rounds : Nat) : Machine Header := headerFrom rounds .start

/-- Read a header that has to be a number. -/
def number (rounds : Nat) (marker : UInt8) : Machine Int64 := do
  match ← header rounds with
  | .number n => return n
  | .streamed => refuse (.unexpectedStreamedLength marker)

/-- How many bytes of a line are read at most: the limit and a terminator, or as many as a
word can say. -/
def window (limit : UInt64) : UInt64 := if limit + 2 < limit then 0xffffffffffffffff else limit + 2

/-- Read a line of at most `limit` bytes, and give it without its terminator. -/
def line (limit : UInt64) : Machine Bytes := do
  let text ← read (Decoder.take (.line (window limit).toNat))
  let length ← size text
  if text.getLast? ≠ some lf then refuse (.blobTooLarge length.toNat limit.toNat)
  else if text.dropLast.getLast? ≠ some cr then refuse .missingCrlf
  else
    let kept ← sub length 2
    return text.take kept.toNat

/-- Refuse a blob that is longer than allowed. -/
def checkLength (limit length : UInt64) : Machine Unit :=
  if limit < length then refuse (.blobTooLarge length.toNat limit.toNat) else return ()

/-- Read fragments behind those in `collected`, which `fragments` counts. -/
def fragmentsFrom (limit : UInt64) (headerRounds : Nat) : (rounds : Nat) →
    (fragments : UInt64) → (collected : Bytes) → Machine Bytes
  | 0, _, _ => read Decoder.outOfRounds
  | rounds + 1, fragments, collected => do
    let held ← size collected
    within limit held
    read (Decoder.expect fragmentMark)
    match ← header headerRounds with
    | .streamed => refuse (.unexpectedStreamedLength fragmentMark)
    | .number n =>
      if n < 0 then refuse (.unexpectedNumberByte minus)
      else if n = 0 then return collected
      else
        let length ← word n
        let total ← add held length
        checkLength limit total
        within limit total
        let fragment ← read (Decoder.payload length.toNat)
        let fragments ← add fragments 1
        fragmentsFrom limit headerRounds rounds fragments (collected ++ fragment)

/-- Read the bytes of a blob.  A negative length says that there is no blob. -/
def blob (limit : UInt64) (rounds : Nat) : Machine (Option Bytes) := do
  match ← header rounds with
  | .streamed => return some (← fragmentsFrom limit rounds rounds 0 [])
  | .number n =>
    if n < 0 then return none
    else
      let length ← word n
      checkLength limit length
      within limit length
      return some (← read (Decoder.payload length.toNat))

/-! ## Aggregates -/

/-- Read `left` elements behind those in `items`, which are `held` and stand last one first. -/
def elementsFrom (element : Machine Value) : (left : Nat) → (held : UInt64) →
    (items : List Value) → Machine (List Value)
  | 0, _, items => return items.reverse
  | left + 1, held, items => do
    let value ← element
    let held ← add held 1
    elementsFrom element left held (value :: items)

/-- Read the elements of a stream behind those in `items`, which are `held` and stand last one
first. -/
def elementsToEnd (perEntry : UInt64) (element : Machine Value) : (rounds : Nat) →
    (held : UInt64) → (items : List Value) → Machine (Data Value)
  | 0, _, _ => read Decoder.outOfRounds
  | rounds + 1, held, items => do
    let value ← element
    if value.kind = .endOfStream then
      if held % perEntry = 0 then return .elements items.reverse
      else refuse (.oddMapLength held.toNat)
    else
      let held ← add held 1
      elementsToEnd perEntry element rounds held (value :: items)

/-- Read an aggregate whose entries are `perEntry` elements each.  A count that is no word is not
refused but stops the machine, so overflows are left to headers. -/
def aggregate (perEntry : UInt64) (rounds : Nat) (element : Machine Value) :
    Machine (Data Value) := do
  match ← header rounds with
  | .number n =>
    if n < 0 then return .null
    else
      let length ← word n
      let count ← mul length perEntry
      return .elements (← elementsFrom element count.toNat 0 [])
  | .streamed => elementsToEnd perEntry element rounds 0 []

/-! ## Units -/

/-- Read what follows the marker of a kind at a depth.  `element?` reads an element at the depth
that it is given; there is none where the depth is at its limit. -/
def body (bounds : Bounds) (rounds : Nat) (depth : UInt64)
    (element? : Option (UInt64 → Machine Value)) (kind : Kind) : Machine (Data Value) :=
  match kind.form with
  | .line => do return .str (← line bounds.maxBlobLength)
  | .blob => do
    match ← blob bounds.maxBlobLength rounds with
    | some bytes => return .str bytes
    | none => return .null
  | .integer => do return .int (← number rounds kind.marker)
  | .bare => do
    read Decoder.terminator
    return .null
  | .boolean => read Decoder.boolean
  | .aggregate perEntry => do
    let inner ← add depth 1
    if bounds.maxDepth < inner then refuse (.nestingTooDeep bounds.maxDepth.toNat)
    else
      match element? with
      | none => read Decoder.outOfRounds
      | some element => aggregate perEntry.toUInt64 rounds (element inner)

/-- Read a unit at a depth behind the attributes unit `pending`. -/
def unitBehind (bounds : Bounds) (bodyRounds : Nat) (depth : UInt64)
    (element? : Option (UInt64 → Machine Value)) :
    (rounds : Nat) → (pending : Option Value) → Machine Value
  | 0, _ => read Decoder.outOfRounds
  | rounds + 1, pending => do
    let b ← read Decoder.nextByte
    match Kind.ofMarker? b with
    | none => refuse (.unknownMarker b)
    | some kind =>
      let data ← body bounds bodyRounds depth element? kind
      if kind = .attributes then
        unitBehind bounds bodyRounds depth element? rounds (some (.ofData .attributes data))
      else return ⟨Decoder.settledKind kind data, data, pending⟩

/-- Read a unit at a depth.  The recursion is on the levels that are left, the machine goes by
the depth. -/
def unit (bounds : Bounds) (rounds : Nat) : (levels : Nat) → (depth : UInt64) → Machine Value
  | 0, depth => do
    within bounds.maxDepth depth
    unitBehind bounds rounds depth none rounds none
  | levels + 1, depth => do
    within bounds.maxDepth depth
    unitBehind bounds rounds depth (some (unit bounds rounds levels)) rounds none

/-- Read one value from a source, or stop. -/
def decode {σ : Type} [ByteSource σ] (bounds : Bounds) : EStateM Error σ (Except Trap Value) :=
  fun s => (unit bounds (ByteSource.size s + 1) bounds.maxDepth.toNat 0).run.run s

/-- A sum that wraps, a difference below zero and a limit that is not kept stop the machine. -/
example : add 0xffffffffffffffff 1 = throw (.wrapped 0x10000000000000000) ∧
    sub 1 2 = throw (.wrapped (-1)) ∧ within 3 4 = throw (.exceeded 4 3) := ⟨rfl, rfl, rfl⟩

end Machine
end RespCodec
