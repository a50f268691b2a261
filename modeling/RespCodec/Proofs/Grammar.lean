/-
# The grammar of units

What may stand on the wire, said without a decoder.  A language relates bytes
to the results that they are written for:

| language | bytes |
| --- | --- |
| `Number` | an optional `-`, digits, `CR LF`; the number fits in 64 bits |
| `Line` | text without a line feed, `CR LF` |
| `Fragments` | `;` number payload `CR LF`, repeated; `;` zero at the end |
| `Blob` | a negative number; or a length and a payload; or `? CR LF` and fragments |
| `Units` | units one after another |
| `Aggregate` | a negative number; or a count and units; or `? CR LF`, units, an end of stream |
| `Body` | a marker byte and what belongs to it |
| `Behind` | attributes units, then the body of a value |

Digits may have leading zeros, and zero a sign.  Elements are units one level
deeper, so the languages of aggregates and bodies take the language of their
elements as a parameter, and `unit` ties the knot by recursion on the levels of
nesting that are left.
-/

import Mathlib.Algebra.Group.Int.Defs
import Mathlib.Algebra.Group.Nat.Defs
import RespCodec.Config
import RespCodec.Value.Basic

namespace RespCodec

/-- Bytes and the results that they are written for. -/
abbrev Language (α : Type) := Bytes → α → Prop

namespace Grammar

/-- The bytes `0` to `9`. -/
def IsDigit (b : UInt8) : Prop := 0x30 ≤ b ∧ b ≤ 0x39

/-- The number that digits make of the number in front of them. -/
def continued (head : Nat) (digits : Bytes) : Nat :=
  digits.foldl (fun n b => n * 10 + (b.toNat - 0x30)) head

/-- One digit or more, and their number. -/
structure Digits (digits : Bytes) (n : Nat) : Prop where
  ne_nil : digits ≠ []
  isDigit : ∀ b ∈ digits, IsDigit b
  value : continued 0 digits = n

/-- A signed 64-bit number and its terminator. -/
inductive Number : Language Int
  | plain {digits : Bytes} {n : Nat} (h : Digits digits n) (hn : n < 2 ^ 63) :
    Number (digits ++ crlf) n
  | negative {digits : Bytes} {n : Nat} (h : Digits digits n) (hn : n ≤ 2 ^ 63) :
    Number ('-'.toUInt8 :: digits ++ crlf) (-n)

/-- A line of text of at most `limit` bytes and its terminator. -/
inductive Line (limit : Nat) : Language Bytes
  | intro {text : Bytes} (hlf : lf ∉ text) (hlimit : text.length ≤ limit) :
    Line limit (text ++ crlf) text

/-- Fragments and the empty one that ends them, for all their payloads joined. -/
inductive Fragments : Language Bytes
  | last {head : Bytes} (hhead : Number head 0) : Fragments (';'.toUInt8 :: head) []
  | more {head fragment bytes rest : Bytes} (hhead : Number head fragment.length)
    (hne : fragment ≠ []) (hbytes : Fragments bytes rest) :
    Fragments (';'.toUInt8 :: head ++ fragment ++ crlf ++ bytes) (fragment ++ rest)

/-- What follows the marker of a blob of at most `limit` bytes.  A blob of
negative length is none. -/
inductive Blob (limit : Nat) : Language (Option Bytes)
  | absent {head : Bytes} {n : Int} (hhead : Number head n) (hn : n < 0) : Blob limit head none
  | bounded {head payload : Bytes} (hhead : Number head payload.length)
    (hlimit : payload.length ≤ limit) : Blob limit (head ++ payload ++ crlf) (some payload)
  | fragmented {bytes payload : Bytes} (hbytes : Fragments bytes payload)
    (hlimit : payload.length ≤ limit) :
    Blob limit ('?'.toUInt8 :: crlf ++ bytes) (some payload)

/-- Units one after another. -/
inductive Units (unit : Language Value) : Language (List Value)
  | nil : Units unit [] []
  | cons {bytes rest : Bytes} {value : Value} {values : List Value} (hbytes : unit bytes value)
    (hrest : Units unit rest values) : Units unit (bytes ++ rest) (value :: values)

/-- What follows the marker of an aggregate with `perEntry` elements to each
entry.  The unit that ends a streamed one is not an element. -/
inductive Aggregate (perEntry : Nat) (unit : Language Value) : Language (Data Value)
  | absent {head : Bytes} {n : Int} (hhead : Number head n) (hn : n < 0) :
    Aggregate perEntry unit head .null
  | bounded {head bytes : Bytes} {count : Nat} {items : List Value} (hhead : Number head count)
    (hbytes : Units unit bytes items) (hcount : items.length = count * perEntry) :
    Aggregate perEntry unit (head ++ bytes) (.elements items)
  | streamed {bytes last : Bytes} {items : List Value} {final : Value}
    (hbytes : Units unit bytes items) (hitems : ∀ item ∈ items, item.kind ≠ .endOfStream)
    (hcount : perEntry ∣ items.length) (hlast : unit last final)
    (hfinal : final.kind = .endOfStream) :
    Aggregate perEntry unit ('?'.toUInt8 :: crlf ++ bytes ++ last) (.elements items)

/-- The markers of lines. -/
def lineMarkers : List (Char × Kind) :=
  [('+', .simpleString), ('-', .simpleError), (',', .double), ('(', .bigNumber)]

/-- The markers of blobs. -/
def blobMarkers : List (Char × Kind) :=
  [('$', .blobString), ('!', .blobError), ('=', .verbatimString)]

/-- The markers of aggregates, with the number of elements to each entry. -/
def aggregateMarkers : List (Char × Kind × Nat) :=
  [('*', .array, 1), ('~', .set, 1), ('>', .push, 1), ('%', .map, 2), ('|', .attributes, 2)]

/-- A marker and what belongs to it, for the data of a unit of the kind.  There
are aggregates only where the language of their elements is given. -/
inductive Body (limits : Limits) (unit? : Option (Language Value)) : Kind → Language (Data Value)
  | line {c : Char} {kind : Kind} {bytes text : Bytes} (hc : (c, kind) ∈ lineMarkers)
    (h : Line limits.maxBlobLength bytes text) :
    Body limits unit? kind (c.toUInt8 :: bytes) (.str text)
  | blob {c : Char} {kind : Kind} {bytes payload : Bytes} (hc : (c, kind) ∈ blobMarkers)
    (h : Blob limits.maxBlobLength bytes (some payload)) :
    Body limits unit? kind (c.toUInt8 :: bytes) (.str payload)
  | noBlob {c : Char} {kind : Kind} {bytes : Bytes} (hc : (c, kind) ∈ blobMarkers)
    (h : Blob limits.maxBlobLength bytes none) :
    Body limits unit? kind (c.toUInt8 :: bytes) .null
  | integer {bytes : Bytes} {n : Int64} (h : Number bytes n.toInt) :
    Body limits unit? .integer (':'.toUInt8 :: bytes) (.int n)
  | null : Body limits unit? .null ('_'.toUInt8 :: crlf) .null
  | endOfStream : Body limits unit? .endOfStream ('.'.toUInt8 :: crlf) .null
  | truth : Body limits unit? .boolean ('#'.toUInt8 :: 't'.toUInt8 :: crlf) (.int 1)
  | falsehood : Body limits unit? .boolean ('#'.toUInt8 :: 'f'.toUInt8 :: crlf) (.int 0)
  | aggregate {c : Char} {kind : Kind} {perEntry : Nat} {unit : Language Value} {bytes : Bytes}
    {data : Data Value} (hc : (c, kind, perEntry) ∈ aggregateMarkers) (hunit : unit? = some unit)
    (h : Aggregate perEntry unit bytes data) :
    Body limits unit? kind (c.toUInt8 :: bytes) data

/-- A unit behind the attributes unit `pending`.  Of the attributes units in
front of a value only the last is kept.  A body of null data is a null, whatever
its marker, unless it ends a stream. -/
inductive Behind (limits : Limits) (unit? : Option (Language Value)) :
    Option Value → Language Value
  | value {pending : Option Value} {kind : Kind} {bytes : Bytes} {data : Data Value}
    (h : Body limits unit? kind bytes data) (hkind : kind ≠ .attributes)
    (hdata : data ≠ .null ∨ kind = .endOfStream) :
    Behind limits unit? pending bytes ⟨kind, data, pending⟩
  | null {pending : Option Value} {kind : Kind} {bytes : Bytes}
    (h : Body limits unit? kind bytes .null) (hkind : kind ≠ .attributes)
    (hend : kind ≠ .endOfStream) :
    Behind limits unit? pending bytes ⟨.null, .null, pending⟩
  | attributes {pending : Option Value} {bytes rest : Bytes} {data : Data Value} {value : Value}
    (h : Body limits unit? .attributes bytes data)
    (hrest : Behind limits unit? (some (.ofData .attributes data)) rest value) :
    Behind limits unit? pending (bytes ++ rest) value

/-- A unit in which aggregates nest at most `levels` deep. -/
def unit (limits : Limits) : (levels : Nat) → Language Value
  | 0 => Behind limits none none
  | levels + 1 => Behind limits (some (unit limits levels)) none

/-- Digits may be read in two parts: the second goes on from the number that the first made. -/
theorem continued_append (head : Nat) (front back : Bytes) :
    continued head (front ++ back) = continued (continued head front) back :=
  List.foldl_append

/-- Digits never make a number smaller. -/
theorem le_continued (head : Nat) (digits : Bytes) : head ≤ continued head digits := by
  induction digits generalizing head with
  | nil => exact Nat.le_refl head
  | cons b digits ih =>
    have h := ih (head * 10 + (b.toNat - 0x30))
    have hcons : continued head (b :: digits) = continued (head * 10 + (b.toNat - 0x30)) digits :=
      rfl
    omega

/-- A number fits in 64 bits. -/
theorem Number.bounds {bytes : Bytes} {n : Int} (h : Number bytes n) :
    -2 ^ 63 ≤ n ∧ n < 2 ^ 63 := by
  cases h with
  | plain h hn => omega
  | negative h hn => omega

/-- A body starts with the marker of its kind, so it is never empty. -/
theorem Body.ne_nil {limits : Limits} {unit? : Option (Language Value)} {kind : Kind}
    {bytes : Bytes} {data : Data Value} (h : Body limits unit? kind bytes data) : bytes ≠ [] := by
  cases h <;> exact List.cons_ne_nil _ _

/-- A unit ends in a body, so it takes bytes however many attributes stand in front of it. -/
theorem Behind.ne_nil {limits : Limits} {unit? : Option (Language Value)} {pending : Option Value}
    {bytes : Bytes} {value : Value} (h : Behind limits unit? pending bytes value) : bytes ≠ [] := by
  induction h with
  | value h => exact h.ne_nil
  | null h => exact h.ne_nil
  | attributes h hrest ih => exact List.append_ne_nil_of_left_ne_nil h.ne_nil _

/-- A unit takes bytes. -/
theorem unit_ne_nil {limits : Limits} {levels : Nat} {bytes : Bytes} {value : Value}
    (h : unit limits levels bytes value) : bytes ≠ [] := by
  cases levels with
  | zero => exact Behind.ne_nil h
  | succ levels => exact Behind.ne_nil h

end Grammar
end RespCodec
