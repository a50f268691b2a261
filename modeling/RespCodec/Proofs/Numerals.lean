/-
# Numbers digit by digit

A header is read digit by digit in 64-bit arithmetic, and each digit is added in two
checked steps.  Digits only take a value away from zero, toward its sign.  So the
smaller of the two values is in range if the larger is, and what is left of the two
checks is one: the digits so far stand for an integer that is in range
(`Numeral.push?_read_eq_some_iff`).

`Grammar.NumberHead` says which signs and digits a number may begin with, over the
integers.  The numbers of the grammar are those of them that have a digit and a
terminator (`Grammar.number_iff`), and `Numeral.read` is what a reader holds behind
one.
-/

import RespCodec.Decoder.Field
import RespCodec.Proofs.Grammar

namespace RespCodec
namespace Grammar

variable {negative : Bool} {digits : Bytes} {b : UInt8}

/-- The bytes of a sign.  A number without one is not negative. -/
def sign (negative : Bool) : Bytes := if negative then ['-'.toUInt8] else []

/-- The integer that digits stand for behind a sign. -/
def signed (negative : Bool) (digits : Bytes) : Int :=
  if negative then -(continued 0 digits : Int) else continued 0 digits

/-- The integer is a signed 64-bit number. -/
def InRange (n : Int) : Prop := -2 ^ 63 ≤ n ∧ n < 2 ^ 63

instance (b : UInt8) : Decidable (IsDigit b) := inferInstanceAs (Decidable (_ ∧ _))

instance (n : Int) : Decidable (InRange n) := inferInstanceAs (Decidable (_ ∧ _))

/-- A number may begin with the sign and the digits: at no digit the value left the
range. -/
structure NumberHead (negative : Bool) (digits : Bytes) : Prop where
  isDigit : ∀ b ∈ digits, IsDigit b
  inRange : ∀ front, front <+: digits → InRange (signed negative front)

/-- What one more digit makes of a value. -/
def grown (negative : Bool) (value : Int) (digit : Nat) : Int :=
  if negative then value * 10 - digit else value * 10 + digit

/-- One digit more moves a number away from zero, toward its sign. -/
theorem signed_concat :
    signed negative (digits ++ [b]) = grown negative (signed negative digits) (b.toNat - 0x30) := by
  have hconcat : continued 0 (digits ++ [b]) = continued 0 digits * 10 + (b.toNat - 0x30) :=
    continued_append 0 digits [b]
  simp only [signed, grown, hconcat]
  split <;> omega

/-- An integer in range is not changed by being put into a word. -/
theorem InRange.toInt_ofInt {n : Int} (h : InRange n) : (Int64.ofInt n).toInt = n :=
  Int64.toInt_ofInt_of_le h.1 h.2

/-- Digits take a value away from zero only, so fewer of them stay in range. -/
theorem InRange.of_append {more : Bytes} (h : InRange (signed negative (digits ++ more))) :
    InRange (signed negative digits) := by
  have hle := le_continued (continued 0 digits) more
  rw [← continued_append] at hle
  cases negative <;> simp only [InRange, signed, if_true, Bool.false_eq_true, if_false] at h ⊢ <;>
    omega

/-- If the value is in range with one digit more, so it is with a zero. -/
theorem InRange.scaled (h : InRange (signed negative (digits ++ [b]))) :
    InRange (signed negative digits * 10) := by
  rw [signed_concat] at h
  cases negative <;>
    simp only [InRange, grown, signed, if_true, Bool.false_eq_true, if_false] at h ⊢ <;> omega

/-- A head of a number is digits whose value is in range.  The values in between are nearer to zero,
so they need not be asked for. -/
theorem numberHead_iff : NumberHead negative digits ↔
    (∀ b ∈ digits, IsDigit b) ∧ InRange (signed negative digits) := by
  constructor
  · intro h
    exact ⟨h.isDigit, h.inRange digits (List.prefix_refl digits)⟩
  · rintro ⟨hdigits, hrange⟩
    refine ⟨hdigits, ?_⟩
    rintro front ⟨back, rfl⟩
    exact hrange.of_append

instance : Decidable (NumberHead negative digits) :=
  decidable_of_iff
    (digits.all (fun b => decide (IsDigit b)) = true ∧ InRange (signed negative digits))
    (by simp only [numberHead_iff, List.all_eq_true, decide_eq_true_eq])

/-- The value of a head is in range, so as a word it is the same. -/
theorem NumberHead.toInt_ofInt (h : NumberHead negative digits) :
    (Int64.ofInt (signed negative digits)).toInt = signed negative digits :=
  (numberHead_iff.1 h).2.toInt_ofInt

/-- Before the first digit the value is zero. -/
theorem numberHead_nil (negative : Bool) : NumberHead negative [] := by
  cases negative <;> decide

/-- A head goes on with a digit as long as it stays in range. -/
theorem numberHead_concat_iff : NumberHead negative (digits ++ [b]) ↔
    NumberHead negative digits ∧ IsDigit b ∧ InRange (signed negative (digits ++ [b])) := by
  simp only [numberHead_iff, List.mem_append, List.mem_singleton, or_imp, forall_and,
    forall_eq]
  constructor
  · rintro ⟨⟨hdigits, hb⟩, hrange⟩
    exact ⟨⟨hdigits, hrange.of_append⟩, hb, hrange⟩
  · rintro ⟨⟨hdigits, -⟩, hb, hrange⟩
    exact ⟨⟨hdigits, hb⟩, hrange⟩

/-- A head of a head is one: fewer digits are a smaller number. -/
theorem NumberHead.of_append {more : Bytes} (h : NumberHead negative (digits ++ more)) :
    NumberHead negative digits :=
  ⟨fun b hb => h.isDigit b (List.mem_append_left more hb),
    fun _ hfront => h.inRange _ (hfront.trans (List.prefix_append digits more))⟩

/-- A number is a head with a digit, and a terminator. -/
theorem number_iff {bytes : Bytes} {n : Int} :
    Number bytes n ↔ ∃ negative digits, NumberHead negative digits ∧ digits ≠ [] ∧
      bytes = sign negative ++ digits ++ crlf ∧ n = signed negative digits := by
  constructor
  · intro h
    have hbounds := h.bounds
    cases h with
    | plain h =>
      obtain ⟨hne, hdigit, rfl⟩ := h
      exact ⟨false, _, numberHead_iff.2 ⟨hdigit, hbounds⟩, hne, rfl, rfl⟩
    | negative h =>
      obtain ⟨hne, hdigit, rfl⟩ := h
      exact ⟨true, _, numberHead_iff.2 ⟨hdigit, hbounds⟩, hne, rfl, rfl⟩
  · rintro ⟨negative, digits, h, hne, rfl, rfl⟩
    obtain ⟨hdigit, hrange⟩ := numberHead_iff.1 h
    have hdigits : Digits digits (continued 0 digits) := ⟨hne, hdigit, rfl⟩
    cases negative with
    | false =>
      have hlt : (continued 0 digits : Int) < 2 ^ 63 := hrange.2
      exact .plain hdigits (by omega)
    | true =>
      have hle : -2 ^ 63 ≤ -(continued 0 digits : Int) := hrange.1
      exact .negative hdigits (by omega)

/-- A head with a digit is a number, once it is terminated. -/
theorem NumberHead.number (h : NumberHead negative digits) (hne : digits ≠ []) :
    Number (sign negative ++ digits ++ crlf) (Int64.ofInt (signed negative digits)).toInt :=
  number_iff.2 ⟨negative, digits, h, hne, rfl, h.toInt_ofInt⟩

end Grammar

namespace Decoder

open Grammar

/-- A byte is a digit if it is between the two outer ones, and its value is how far it is from the
first. -/
theorem digit?_eq_some_iff {b : UInt8} {digit : Nat} :
    Decimal.digit? b = some digit ↔ IsDigit b ∧ digit = b.toNat - 0x30 := by
  unfold Decimal.digit? IsDigit
  split
  · rename_i h
    simp [h, eq_comm]
  · rename_i h
    simp only [h, false_and, reduceCtorEq]

/-- The first byte of a terminator is no digit, so digits end there. -/
theorem digit?_cr : Decimal.digit? cr = none := by decide

/-- A sign is no digit. -/
theorem digit?_minus : Decimal.digit? minus = none := by decide

/-- The mark of an open length is no digit. -/
theorem digit?_streamedMark : Decimal.digit? streamedMark = none := by decide

namespace Numeral

variable {negative : Bool} {digits : Bytes} {b : UInt8}

/-- A checked operation succeeds if its exact result is in range, and then gives that. -/
theorem checked_eq_some_iff {n : Int} {m : Int64} :
    checked n = some m ↔ InRange n ∧ m = .ofInt n := by
  have hrange : -0x8000000000000000 ≤ n ∧ n ≤ 0x7fffffffffffffff ↔ InRange n := by
    unfold InRange
    omega
  simp only [checked, hrange, Option.ite_none_right_eq_some, Option.some.injEq, @eq_comm _ m]

/-- A digit is added in two steps that both have to stay in range. -/
theorem push?_eq_some_iff {numeral next : Numeral} {digit : Nat} :
    numeral.push? digit = some next ↔
      InRange (numeral.value.toInt * 10) ∧
        InRange (grown numeral.negative numeral.value.toInt digit) ∧
        next = { numeral with
          value := .ofInt (grown numeral.negative numeral.value.toInt digit)
          digits := numeral.digits + 1 } := by
  simp only [push?, Option.bind_eq_bind, Option.bind_eq_some_iff, checked_eq_some_iff,
    Option.pure_def, Option.some.injEq]
  constructor
  · rintro ⟨_, ⟨hscaled, rfl⟩, _, ⟨hgrown, rfl⟩, rfl⟩
    -- the second step starts from the exact product, since the first one stayed in range
    rw [hscaled.toInt_ofInt] at hgrown ⊢
    exact ⟨hscaled, hgrown, rfl⟩
  · rintro ⟨hscaled, hgrown, rfl⟩
    refine ⟨_, ⟨hscaled, rfl⟩, _, ⟨?_, rfl⟩, ?_⟩
    · rwa [hscaled.toInt_ofInt]
    · rw [hscaled.toInt_ofInt]
      rfl

/-- The numeral of which a sign and digits were read. -/
def read (negative : Bool) (digits : Bytes) : Numeral :=
  ⟨negative, .ofInt (signed negative digits), digits.length⟩

/-- The two steps come to one: with the new digit the value is in range.  With a zero in place
of the digit the value is no further from zero, so the first step cannot fail alone. -/
theorem push?_read_eq_some_iff {next : Numeral} (h : NumberHead negative digits) :
    (read negative digits).push? (b.toNat - 0x30) = some next ↔
      InRange (signed negative (digits ++ [b])) ∧ next = read negative (digits ++ [b]) := by
  have hvalue : (read negative digits).value.toInt = signed negative digits :=
    h.toInt_ofInt
  have hread : read negative (digits ++ [b]) =
      ⟨negative, .ofInt (signed negative (digits ++ [b])), digits.length + 1⟩ := by
    rw [read, List.length_append, List.length_singleton]
  rw [push?_eq_some_iff, hvalue, hread]
  show _ ∧ InRange (grown negative _ _) ∧ next = ⟨negative, .ofInt (grown negative _ _), _⟩ ↔ _
  rw [← signed_concat]
  exact and_iff_right_of_imp fun hpushed => hpushed.1.scaled

/-- A numeral has a value if a digit was read, and it is that of the digits with the sign. -/
theorem value?_read {n : Int64} : (read negative digits).value? = some n ↔
    digits ≠ [] ∧ n = .ofInt (signed negative digits) := by
  cases digits with
  | nil => simp [value?, read]
  | cons b digits => simp [value?, read, eq_comm]

/-- A sign or a mark may stand where neither a sign nor a digit was read. -/
theorem isStart_read : (read negative digits).isStart = true ↔ negative = false ∧ digits = [] := by
  simp [isStart, read]

end Numeral
end Decoder
end RespCodec
