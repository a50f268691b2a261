/-
# Bytes as printable text

A byte is shown as itself where it is printable ASCII, and escaped elsewhere,
so that text made of escaped bytes never holds a control character or a line
break:

| byte | shown as |
| --- | --- |
| `09`, `0d`, `0a` | a backslash and `t`, `r`, `n` |
| `22`, `27`, `5c` (the quotes, the backslash) | a backslash and the character |
| any other of `20` to `7e` | the character |
| the rest | a backslash, `x` and two lower-case hexadecimal digits |
-/

import RespCodec.Bytes

namespace RespCodec

/-- The backslash, which opens every escape. -/
def backslash : Char := Char.ofNat 0x5c

/-- A byte as one to four printable characters. -/
def escapeByte (b : UInt8) : List Char :=
  let character := Char.ofNat b.toNat
  if b = 0x09 then [backslash, 't']
  else if b = cr then [backslash, 'r']
  else if b = lf then [backslash, 'n']
  else if b = 0x22 ∨ b = 0x27 ∨ b = 0x5c then [backslash, character]
  else if 0x20 ≤ b ∧ b ≤ 0x7e then [character]
  else [backslash, 'x', Nat.digitChar (b.toNat / 16), Nat.digitChar (b.toNat % 16)]

/-- Bytes as printable characters, byte by byte. -/
def escape (bytes : Bytes) : List Char := bytes.flatMap escapeByte

end RespCodec
