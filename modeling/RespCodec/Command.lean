/-
# Commands

A command is the flat list of its arguments, name first.  It goes out as an
array of blob strings:

| part | bytes |
| --- | --- |
| head | `*`, the number of arguments, `CR LF` |
| each argument | `$`, its length, `CR LF`, its bytes, `CR LF` |

Its bytes are put at the end of a buffer, piece by piece (`encodeOnto`).  What the
buffer held before stays in front of them and has no part in them (`encodeOnto_eq`).

`encodedLength` computes the size of that without writing it, and
`length_encode` says that the two agree.  `encodedSize` adds up the same in 64-bit
words, as it is asked of a buffer.
-/

import RespCodec.Decimal
import RespCodec.Kind

namespace RespCodec

/-- A command: its arguments, of which the first is its name. -/
structure Command where
  args : List Bytes := []
  deriving DecidableEq

namespace Command

/-- A command of its name alone. -/
def named (name : Bytes) : Command := ⟨[name]⟩

/-- The command with one more argument. -/
def arg (command : Command) (bytes : Bytes) : Command := ⟨command.args ++ [bytes]⟩

/-- The first argument. -/
def name? (command : Command) : Option Bytes := command.args.head?

/-- The number of arguments, the name among them. -/
def size (command : Command) : Nat := command.args.length

/-- There is not even a name. -/
def isEmpty (command : Command) : Bool := command.args.isEmpty

/-! ## On the wire -/

/-- A marker and a number, put at the end of a buffer. -/
def putHeader (buffer : Bytes) (kind : Kind) (n : UInt64) : Bytes :=
  Decimal.put (buffer ++ [kind.marker]) n ++ crlf

/-- An argument as a blob string, put at the end of a buffer. -/
def putArgument (buffer bytes : Bytes) : Bytes :=
  putHeader buffer .blobString bytes.length.toUInt64 ++ bytes ++ crlf

/-- A command put at the end of a buffer. -/
def encodeOnto (buffer : Bytes) (command : Command) : Bytes :=
  command.args.foldl putArgument (putHeader buffer .array command.size.toUInt64)

/-- A command on the wire. -/
def encode (command : Command) : Bytes := command.encodeOnto []

/-- Commands one after another. -/
def encodeAll (commands : List Command) : Bytes := commands.flatMap encode

/-- A marker and a number behind it. -/
def encodeHeader (kind : Kind) (n : UInt64) : Bytes :=
  kind.marker :: ascii (Decimal.digits n.toNat) ++ crlf

/-- An argument as a blob string. -/
def encodeArgument (bytes : Bytes) : Bytes :=
  encodeHeader .blobString bytes.length.toUInt64 ++ bytes ++ crlf

/-- Putting a header in behind a buffer is appending it: the digits that the scratch is filled with
are those of the number, so the emission loop writes what `encodeHeader` says. -/
theorem putHeader_eq (buffer : Bytes) (kind : Kind) (n : UInt64) :
    putHeader buffer kind n = buffer ++ encodeHeader kind n := by
  simp [putHeader, encodeHeader, Decimal.put_eq]

/-- An argument is put in behind what is there, and nothing of that is touched. -/
theorem putArgument_eq (buffer bytes : Bytes) :
    putArgument buffer bytes = buffer ++ encodeArgument bytes := by
  simp [putArgument, encodeArgument, putHeader_eq]

/-- The loop over the arguments appends them one behind the other, in their order. -/
theorem foldl_putArgument (args : List Bytes) (buffer : Bytes) :
    args.foldl putArgument buffer = buffer ++ args.flatMap encodeArgument := by
  induction args generalizing buffer with
  | nil => exact (List.append_nil _).symm
  | cons bytes args ih =>
    rw [List.foldl_cons, ih, putArgument_eq, List.flatMap_cons, List.append_assoc]

/-- A command on the wire is its head and its arguments. -/
theorem encode_eq (command : Command) :
    command.encode =
      encodeHeader .array command.size.toUInt64 ++ command.args.flatMap encodeArgument := by
  rw [encode, encodeOnto, foldl_putArgument, putHeader_eq, List.nil_append]

/-- Behind whatever a buffer holds, the bytes of a command are the same. -/
theorem encodeOnto_eq (buffer : Bytes) (command : Command) :
    command.encodeOnto buffer = buffer ++ command.encode := by
  rw [encodeOnto, foldl_putArgument, putHeader_eq, List.append_assoc, encode_eq]

/-! ## Sizes -/

/-- The size of a marker and a number behind it. -/
def headerLength (n : UInt64) : Nat := 1 + Decimal.width n + 2

/-- The size of an argument on the wire. -/
def argumentLength (bytes : Bytes) : Nat :=
  headerLength bytes.length.toUInt64 + bytes.length + 2

/-- The size of a command on the wire, by its lengths alone. -/
def encodedLength (command : Command) : Nat :=
  command.args.foldl (· + argumentLength ·) (headerLength command.size.toUInt64)

/-- The size of a marker and a number, as a word. -/
def headerSize (n : UInt64) : UInt64 := 1 + (Decimal.width n).toUInt64 + 2

/-- The size of an argument, as a word. -/
def argumentSize (bytes : Bytes) : UInt64 :=
  headerSize bytes.length.toUInt64 + bytes.length.toUInt64 + 2

/-- The size of a command as words add it up. -/
def encodedSize (command : Command) : UInt64 :=
  command.args.foldl (· + argumentSize ·) (headerSize command.size.toUInt64)

/-- A header is as long as it is counted: a marker, as many digits as the width says, and a
terminator. -/
theorem length_encodeHeader (kind : Kind) (n : UInt64) :
    (encodeHeader kind n).length = headerLength n := by
  simp [encodeHeader, ascii, crlf, headerLength, Decimal.length_digits]
  omega

/-- So is an argument: its header, its bytes and a terminator. -/
theorem length_encodeArgument (bytes : Bytes) :
    (encodeArgument bytes).length = argumentLength bytes := by
  simp [encodeArgument, length_encodeHeader, argumentLength, crlf, Nat.add_assoc]

/-- Exactness: **the computed size is the number of bytes written.** -/
theorem length_encode (command : Command) : command.encode.length = command.encodedLength := by
  have sizes (args : List Bytes) (size : Nat) :
      args.foldl (· + argumentLength ·) size = size + (args.flatMap encodeArgument).length := by
    induction args generalizing size with
    | nil => rfl
    | cons bytes rest ih =>
      rw [List.foldl_cons, ih, List.flatMap_cons, List.length_append, length_encodeArgument]
      omega
  rw [encode_eq, encodedLength, sizes, List.length_append, length_encodeHeader]

/-- Words add up to the size, as far as a word can tell. -/
theorem encodedSize_eq (command : Command) :
    command.encodedSize = command.encodedLength.toUInt64 := by
  have sizes (args : List Bytes) (size : Nat) :
      args.foldl (· + argumentSize ·) size.toUInt64 =
        (args.foldl (· + argumentLength ·) size).toUInt64 := by
    induction args generalizing size with
    | nil => rfl
    | cons bytes rest ih =>
      have hstep : size.toUInt64 + argumentSize bytes = (size + argumentLength bytes).toUInt64 := by
        simp [argumentSize, argumentLength, headerSize, headerLength]
      rw [List.foldl_cons, List.foldl_cons, hstep, ih]
  have hhead : headerSize command.size.toUInt64 =
      (headerLength command.size.toUInt64).toUInt64 := by
    simp [headerSize, headerLength]
  rw [encodedSize, hhead, sizes, encodedLength]

end Command
end RespCodec
