/-
# The sixteen kinds of value

RESP, in its versions 2 and 3, frames the replies of a key-value store.  A unit
on the wire opens with a marker byte, which fixes the kind of the value and
with it the form of what follows:

| kind | marker | form |
| --- | --- | --- |
| blob string, blob error, verbatim string | `$` `!` `=` | a length, then that many bytes; or fragments |
| simple string, simple error, double, big number | `+` `-` `,` `(` | a line of text |
| integer | `:` | a signed 64-bit number |
| null, end of stream | `_` `.` | nothing |
| boolean | `#` | `t` or `f` |
| array, set, push | `*` `~` `>` | a count, then that many units; or units up to an end of stream |
| map, attributes | `%` `|` | a count of pairs, then two units for each; or units up to an end of stream |

`Kind.ofMarker?_marker` and `Kind.marker_of_ofMarker?` say that markers name
kinds without ambiguity.
-/

import RespCodec.Bytes

namespace RespCodec

/-- What a value is, as its marker byte says. -/
inductive Kind where
  | blobString
  | blobError
  | verbatimString
  | simpleString
  | simpleError
  | double
  | bigNumber
  | integer
  | null
  | endOfStream
  | boolean
  | array
  | set
  | push
  | map
  | attributes
  deriving DecidableEq

/-- How the rest of a unit is laid out behind its marker. -/
inductive Form where
  /-- A line of text. -/
  | line
  /-- Raw bytes of a known length, or in fragments. -/
  | blob
  /-- A signed number. -/
  | integer
  /-- Nothing but the terminator. -/
  | bare
  /-- One letter. -/
  | boolean
  /-- Elements, `perEntry` of them to each entry that the length counts. -/
  | aggregate (perEntry : Nat)
  deriving DecidableEq

namespace Kind

/-- Every kind, in the order of the marker table. -/
def all : List Kind :=
  [.blobString, .blobError, .verbatimString, .simpleString, .simpleError, .double, .bigNumber,
    .integer, .null, .endOfStream, .boolean, .array, .set, .push, .map, .attributes]

/-- The character that opens a unit of this kind. -/
def symbol : Kind → Char
  | blobString => '$'
  | blobError => '!'
  | verbatimString => '='
  | simpleString => '+'
  | simpleError => '-'
  | double => ','
  | bigNumber => '('
  | integer => ':'
  | null => '_'
  | endOfStream => '.'
  | boolean => '#'
  | array => '*'
  | set => '~'
  | push => '>'
  | map => '%'
  | attributes => '|'

/-- The byte that opens a unit of this kind. -/
def marker (kind : Kind) : UInt8 := kind.symbol.toUInt8

/-- The kind that a byte announces, if it is a marker. -/
def ofMarker? (b : UInt8) : Option Kind := all.find? (·.marker == b)

/-- The layout of a unit of this kind. -/
def form : Kind → Form
  | blobString | blobError | verbatimString => .blob
  | simpleString | simpleError | double | bigNumber => .line
  | integer => .integer
  | null | endOfStream => .bare
  | boolean => .boolean
  | array | set | push => .aggregate 1
  | map | attributes => .aggregate 2

/-- Errors come as a line or as a blob. -/
def isError : Kind → Bool
  | simpleError | blobError => true
  | _ => false

/-- The kinds whose elements alternate between keys and values. -/
def isMap : Kind → Bool
  | map | attributes => true
  | _ => false

/-- The kinds that hold elements. -/
def isAggregate : Kind → Bool
  | array | set | push | map | attributes => true
  | _ => false

/-- The table of kinds leaves none out, so a search of it finds every kind. -/
theorem mem_all (kind : Kind) : kind ∈ all := by cases kind <;> decide

/-- No two kinds have a marker in common: each is found by its own. -/
theorem ofMarker?_marker (kind : Kind) : ofMarker? kind.marker = some kind := by
  cases kind <;> decide

/-- And a kind that is found by a byte has that byte for its marker, so the table can be read both
ways. -/
theorem marker_of_ofMarker? {b : UInt8} {kind : Kind} (h : ofMarker? b = some kind) :
    kind.marker = b := by
  simpa using List.find?_some h

end Kind
end RespCodec
