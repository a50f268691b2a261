/-
# Bytes

What travels on the wire is a list of bytes.  Two of them have a role of their
own in every unit: a carriage return and a line feed close each header, each
line and each payload.
-/

namespace RespCodec

/-- A run of bytes, first byte first. -/
abbrev Bytes := List UInt8

/-- The carriage return, first byte of a terminator. -/
def cr : UInt8 := 0x0d

/-- The line feed, last byte of a terminator. -/
def lf : UInt8 := 0x0a

/-- The terminator of every header, line and payload. -/
def crlf : Bytes := [cr, lf]

/-- The bytes of a text of ASCII characters, one byte a character. -/
def ascii (text : List Char) : Bytes := text.map Char.toUInt8

/-- The text that the bytes are the UTF-8 form of, if they are one. -/
def utf8? (bytes : Bytes) : Option String := String.fromUTF8? ⟨bytes.toArray⟩

end RespCodec
