/-
# Canonical digits

A number is written without an idle zero in front, and there is one way to do that.
`Canonical` says what such digits are, without a loop that writes them: digits that make the
number, the first of which is a zero only if it is the only one.  The digits that are written
are canonical, and no others are (`canonical_iff`).
-/

import Mathlib.Data.List.Induction
import RespCodec.Proofs.RoundTrip

namespace RespCodec

namespace Grammar

/-- Digits of a number of which the first is no zero, unless it is the only one. -/
structure Canonical (digits : Bytes) (n : Nat) : Prop extends Digits digits n where
  head : digits.head? = some '0'.toUInt8 → digits = ['0'.toUInt8]

end Grammar

open Grammar

/-- Digits that do not begin with a zero make a number other than zero. -/
theorem continued_pos {digits : Bytes} (hne : digits ≠ []) (hdigits : ∀ b ∈ digits, IsDigit b)
    (hhead : digits.head? ≠ some '0'.toUInt8) : 0 < continued 0 digits := by
  obtain ⟨b, rest, rfl⟩ := List.exists_cons_of_ne_nil hne
  have hlower : 0x30 ≤ b.toNat := UInt8.le_iff_toNat_le.1 (hdigits b List.mem_cons_self).1
  have hzero : b.toNat ≠ 0x30 := fun h => hhead (congrArg some (UInt8.toNat_inj.1 h))
  have hle := le_continued (0 * 10 + (b.toNat - 0x30)) rest
  have hcons : continued 0 (b :: rest) = continued (0 * 10 + (b.toNat - 0x30)) rest := rfl
  omega

/-- A byte that is a digit is the byte of that digit. -/
theorem eq_digitChar {b : UInt8} (h : IsDigit b) : b = (b.toNat - 0x30).digitChar.toUInt8 := by
  have hall : ∀ n < 0x3a, 0x30 ≤ n → n.toUInt8 = (n - 0x30).digitChar.toUInt8 := by decide
  have hlower : 0x30 ≤ b.toNat := UInt8.le_iff_toNat_le.1 h.1
  have hupper : b.toNat ≤ 0x39 := UInt8.le_iff_toNat_le.1 h.2
  rw [← hall b.toNat (by omega) hlower]
  exact UInt8.ofNat_toNat.symm

/-- The digits that are written for a number are canonical. -/
theorem canonical_digits (n : Nat) : Canonical (ascii (Decimal.digits n)) n := by
  induction n using Nat.strongRecOn with
  | ind n ih =>
    refine ⟨digits_digits n, fun hhead => ?_⟩
    rcases Nat.lt_or_ge n 10 with hlt | hge
    · rw [Decimal.digits_of_lt hlt] at hhead ⊢
      exact congrArg (fun b => [b]) (Option.some.inj hhead)
    · have hfront := ih (n / 10) (by omega)
      obtain ⟨b, rest, hcons⟩ := List.exists_cons_of_ne_nil hfront.ne_nil
      rw [Decimal.digits_of_ge hge, ascii, List.map_append, ← ascii, hcons] at hhead
      have hzero := hfront.head (by rw [hcons]; exact hhead)
      -- a zero in front would be all there is in front, and the number below ten
      have hvalue := hfront.value
      rw [hzero] at hvalue
      have hdiv : n / 10 = 0 := hvalue.symm
      omega

/-- There is one canonical way to write a number.  By induction from the last digit: those in
front of it are canonical for the quotient by ten, unless there are none. -/
theorem canonical_iff {digits : Bytes} {n : Nat} :
    Canonical digits n ↔ digits = ascii (Decimal.digits n) := by
  constructor
  · intro h
    -- from the last digit, as `Decimal.digits` takes it off first
    induction digits using List.reverseRecOn generalizing n with
    | nil => exact absurd rfl h.ne_nil
    | append_singleton front b ih =>
      have hb := h.isDigit b (by simp)
      have hupper : b.toNat ≤ 0x39 := UInt8.le_iff_toNat_le.1 hb.2
      have hvalue : n = continued 0 front * 10 + (b.toNat - 0x30) := by
        rw [← h.value, continued_append]
        rfl
      rcases eq_or_ne front [] with rfl | hne
      · have hn : n = b.toNat - 0x30 := by simpa [continued] using hvalue
        rw [hn, Decimal.digits_of_lt (by omega)]
        exact congrArg (fun b => [b]) (eq_digitChar hb)
      · have hdigits : ∀ b ∈ front, IsDigit b := fun b hb => h.isDigit b (by simp [hb])
        -- what is in front of another digit does not start with a zero
        have hhead : front.head? ≠ some '0'.toUInt8 := by
          intro hzero
          have hone := h.head (by rw [List.head?_append, hzero, Option.some_or])
          have hlength : front.length + 1 = 1 := by simpa using congrArg List.length hone
          exact hne (List.eq_nil_of_length_eq_zero (Nat.succ.inj hlength))
        have hpos := continued_pos hne hdigits hhead
        have hfront := ih ⟨⟨hne, hdigits, rfl⟩, fun hzero => absurd hzero hhead⟩
        -- so the digits in front are the quotient and the last digit is the remainder
        have hdiv : n / 10 = continued 0 front := by omega
        have hmod : n % 10 = b.toNat - 0x30 := by omega
        rw [Decimal.digits_of_ge (by omega), hdiv, hmod, ascii, List.map_append, ← ascii, ← hfront]
        exact congrArg (front ++ [·]) (eq_digitChar hb)
  · rintro rfl
    exact canonical_digits n

end RespCodec
