/-
# Sizes known before writing

Room for a command is made before it is written, so its size is computed from its lengths
alone.  Two loops have to agree for that: one counts the digits of a number, the other
writes them, from the last to the first, into a scratch of twenty bytes.

| number | digits | scratch filled from |
| --- | --- | --- |
| `0` to `9` | 1 | byte 19 |
| `10 ^ k` to `10 ^ (k + 1) - 1` | `k + 1` | byte `19 - k` |
| `10 ^ 19` to `2 ^ 64 - 1` | 20 | byte 0 |

What is written are the canonical digits of the number (`exists_fill?_canonical`).

Sizes are added up in 64-bit words.  Words forget what goes beyond them, and it makes no
difference at which step they do, so a size that fits into a word is exact
(`Command.toNat_encodedSize`).
-/

import RespCodec.Proofs.CanonicalDigits

namespace RespCodec

open Grammar

/-! ## Words -/

/-- A scratch takes every word: its digits fill it from its end on, as many bytes as were
computed. -/
theorem exists_fill?_canonical (n : UInt64) :
    ∃ scratch, Decimal.fill? n = some scratch ∧ scratch.start + Decimal.width n = 20 ∧
      scratch.written.length = Decimal.width n ∧ Canonical scratch.written n.toNat ∧
      ∀ buffer, Decimal.put buffer n = buffer ++ scratch.written := by
  obtain ⟨scratch, hfill, hstart, hwritten⟩ := Decimal.exists_fill? n
  refine ⟨scratch, hfill, hstart, ?_, canonical_iff.2 hwritten, fun buffer => ?_⟩
  · rw [hwritten, ascii, List.length_map, Decimal.length_digits]
  · rw [Decimal.put_eq, hwritten]

/-! ## Commands -/

namespace Command

/-- Words add a size up to what a word can hold of it. -/
theorem toNat_encodedSize (command : Command) :
    command.encodedSize.toNat = command.encode.length % 2 ^ 64 := by
  rw [encodedSize_eq, length_encode]
  exact UInt64.toNat_ofNat'

/-- Sizes: **the size that is computed for a command is the number of its bytes,** if a word can
hold it.  These bytes are appended to whatever a buffer holds.  Each number among them is
written from the end of a scratch towards its start, and the start is never overrun, whatever
word it is: what is written are its canonical digits, as many as were counted. -/
theorem encode_measured :
    (∀ command : Command, command.encode.length < 2 ^ 64 →
        command.encodedSize.toNat = command.encode.length) ∧
      (∀ (buffer : Bytes) (command : Command),
        command.encodeOnto buffer = buffer ++ command.encode) ∧
      ∀ n : UInt64, ∃ scratch, Decimal.fill? n = some scratch ∧
        scratch.start + Decimal.width n = 20 ∧ scratch.written.length = Decimal.width n ∧
        Canonical scratch.written n.toNat ∧
        ∀ buffer, Decimal.put buffer n = buffer ++ scratch.written := by
  refine ⟨fun command h => ?_, encodeOnto_eq, exists_fill?_canonical⟩
  rw [toNat_encodedSize, Nat.mod_eq_of_lt h]

/-- A command whose arguments have nine and ten bytes. -/
def roundLengths : Command := ⟨[List.replicate 9 cr, List.replicate 10 lf]⟩

/-- The longer argument has one byte more, and so has its length. -/
theorem encode_roundLengths :
    roundLengths.encode.length < 2 ^ 64 ∧ roundLengths.encodedSize.toNat = 4 + 15 + 17 ∧
      roundLengths.encodeOnto crlf =
        crlf ++ ascii "*2\r\n$9\r\n\r\r\r\r\r\r\r\r\r\r\n$10\r\n\n\n\n\n\n\n\n\n\n\n\r\n".toList := by
  have hlength : roundLengths.encode.length = 36 := by decide
  obtain ⟨hsize, honto, -⟩ := encode_measured
  have hlt : roundLengths.encode.length < 2 ^ 64 := by omega
  refine ⟨hlt, ?_, ?_⟩
  · rw [hsize roundLengths hlt, hlength]
  · rw [honto]
    decide

end Command
end RespCodec
