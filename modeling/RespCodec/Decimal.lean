/-
# Decimal numbers

Numbers are written in base ten, without leading zeros: `digits` gives the characters
of any number.

A length on the wire is a 64-bit word, and `put` writes it behind what a buffer holds.
The digits come out last one first, so they are put together in a scratch of twenty
bytes, from its end towards its start, and are copied from there.  Filling the scratch has
no result if it has to go on in front of the first byte, which it never does for a word
(`exists_fill?`).  So `put` is total, and what it writes are the digits (`put_eq`).

`width` computes how many digits a word takes without writing them, and `length_digits`
says that the two agree.
-/

import RespCodec.Bytes

namespace RespCodec
namespace Decimal

/-- The base-ten digits of a number, most significant first. -/
def digits (n : Nat) : List Char := Nat.toDigits 10 n

/-- A signed number: its magnitude behind a minus sign where it is negative. -/
def signed (n : Int) : List Char :=
  if n < 0 then '-' :: digits n.natAbs else digits n.natAbs

/-- The digits of a number as a text. -/
def text (n : Nat) : String := String.ofList (digits n)

/-- How many digits a word takes, by repeated division. -/
def width (n : UInt64) : Nat := if n < 10 then 1 else width (n / 10) + 1
termination_by n.toNat
decreasing_by
  rename_i h
  have hge : 10 ≤ n.toNat := UInt64.le_iff_toNat_le.1 (UInt64.not_lt.1 h)
  rw [UInt64.toNat_div]
  exact Nat.div_lt_self (by omega) (by decide)

/-- The value of a byte that is a decimal digit. -/
def digit? (b : UInt8) : Option Nat :=
  if 0x30 ≤ b ∧ b ≤ 0x39 then some (b.toNat - 0x30) else none

/-- A number of one digit is written as that digit. -/
theorem digits_of_lt {n : Nat} (h : n < 10) : digits n = [n.digitChar] :=
  Nat.toDigits_of_lt_base h

/-- The last digit comes off the end, and in front of it stands a tenth of the number. -/
theorem digits_of_ge {n : Nat} (h : 10 ≤ n) :
    digits n = digits (n / 10) ++ [(n % 10).digitChar] :=
  Nat.toDigits_of_base_le (by decide) h

/-- Exactness: **the computed width is the number of digits written.** -/
theorem length_digits (n : UInt64) : (digits n.toNat).length = width n := by
  fun_induction width n with
  | case1 n h => simp [digits_of_lt (UInt64.lt_iff_toNat_lt.1 h)]
  | case2 n h ih =>
    have hge : 10 ≤ n.toNat := UInt64.le_iff_toNat_le.1 (UInt64.not_lt.1 h)
    rw [UInt64.toNat_div] at ih
    rw [digits_of_ge hge, List.length_append, List.length_singleton]
    exact congrArg (· + 1) ih

/-- A word takes twenty digits at most. -/
theorem width_le (n : UInt64) : width n ≤ 20 := by
  rw [← length_digits]
  have hlt := n.toNat_lt
  exact (Nat.length_toDigits_le_iff (by decide) (by decide)).2 (by omega)

/-! ## Words put into a buffer -/

/-- Twenty bytes, of which those from `start` on are written. -/
structure Scratch where
  bytes : Vector UInt8 20
  start : Nat
  start_le : start ≤ 20

/-- What is written in a scratch. -/
def Scratch.written (scratch : Scratch) : Bytes := scratch.bytes.toList.drop scratch.start

/-- Write a word into the bytes in front of an index, its last digit first.  There is no
byte in front of index zero. -/
def fillFrom? : (index : Nat) → index ≤ 20 → Vector UInt8 20 → UInt64 → Option Scratch
  | 0, _, _, _ => none
  | index + 1, h, bytes, n =>
    let bytes := bytes.set index (0x30 + (n % 10).toUInt8)
    if n / 10 = 0 then some ⟨bytes, index, Nat.le_of_succ_le h⟩
    else fillFrom? index (Nat.le_of_succ_le h) bytes (n / 10)

/-- Write a word into a scratch from its end on, if there is room for it. -/
def fill? (n : UInt64) : Option Scratch :=
  fillFrom? 20 (Nat.le_refl 20) (Vector.replicate 20 0) n

/-- The byte of the last digit of a word. -/
theorem digitChar_mod_ten (n : UInt64) :
    (n.toNat % 10).digitChar.toUInt8 = 0x30 + (n % 10).toUInt8 := by
  have hall : ∀ d < 10, d.digitChar.toUInt8 = 0x30 + d.toUInt8 := by decide
  rw [hall _ (Nat.mod_lt _ (by decide))]
  rfl

/-- A byte that is written in front of others. -/
theorem drop_set (bytes : Vector UInt8 20) {index : Nat} (h : index < 20) (b : UInt8) :
    (bytes.set index b).toList.drop index = b :: bytes.toList.drop (index + 1) := by
  have hlength : index < (bytes.toList.set index b).length := by simpa using h
  rw [Vector.toList_set, List.drop_eq_getElem_cons hlength, List.getElem_set_self,
    List.drop_set_of_lt (Nat.lt_succ_self index)]

/-- In front of an index with room for its digits a word is written whole. -/
theorem exists_fillFrom? {index : Nat} (h : index ≤ 20) (bytes : Vector UInt8 20) {n : UInt64}
    (hroom : width n ≤ index) :
    ∃ scratch, fillFrom? index h bytes n = some scratch ∧ scratch.start + width n = index ∧
      scratch.written = ascii (digits n.toNat) ++ bytes.toList.drop index := by
  induction index generalizing bytes n with
  | zero =>
    rw [width] at hroom
    split at hroom <;> omega
  | succ index ih =>
    -- the last digit goes to this index, and the digits in front of it to lower ones
    have hstep := drop_set bytes (Nat.lt_of_succ_le h) (0x30 + (n % 10).toUInt8)
    rw [fillFrom?]
    -- the loop ends at the digit that leaves nothing, so a zero is written as well
    by_cases hlast : n / 10 = 0
    · have hzero : n.toNat / 10 = 0 := (UInt64.toNat_div n 10).symm.trans (congrArg _ hlast)
      have hlt : n.toNat < 10 := by omega
      refine ⟨_, if_pos hlast, ?_, ?_⟩
      · rw [width, if_pos (UInt64.lt_iff_toNat_lt.2 hlt)]
      · have hdigit := digitChar_mod_ten n
        rw [Nat.mod_eq_of_lt hlt] at hdigit
        rw [Scratch.written, hstep, digits_of_lt hlt, ← hdigit]
        rfl
    · have hge : 10 ≤ n.toNat := by
        have hne : (n / 10).toNat ≠ 0 := fun hzero => hlast (UInt64.toNat_inj.1 hzero)
        rw [UInt64.toNat_div] at hne
        exact Nat.le_of_not_lt fun hlt => hne (Nat.div_eq_of_lt hlt)
      have hwidth : width n = width (n / 10) + 1 := by
        rw [width, if_neg fun hlt => Nat.not_lt.2 hge (UInt64.lt_iff_toNat_lt.1 hlt)]
      obtain ⟨scratch, hfill, hstart, hwritten⟩ :=
        ih (Nat.le_of_succ_le h) (bytes.set index (0x30 + (n % 10).toUInt8))
          (show width (n / 10) ≤ index by omega)
      refine ⟨scratch, ?_, by omega, ?_⟩
      · rw [if_neg hlast, hfill]
      · rw [hwritten, hstep, UInt64.toNat_div, digits_of_ge hge, ← digitChar_mod_ten]
        simp [ascii]

/-- A scratch has room for every word, and what is written in it are the digits. -/
theorem exists_fill? (n : UInt64) :
    ∃ scratch, fill? n = some scratch ∧ scratch.start + width n = 20 ∧
      scratch.written = ascii (digits n.toNat) := by
  obtain ⟨scratch, hfill, hstart, hwritten⟩ :=
    exists_fillFrom? (Nat.le_refl 20) (Vector.replicate 20 0) (width_le n)
  exact ⟨scratch, hfill, hstart, by simpa using hwritten⟩

/-- The scratch is long enough for every word, so filling it never fails. -/
theorem isSome_fill? (n : UInt64) : (fill? n).isSome = true := by
  obtain ⟨scratch, hfill, -⟩ := exists_fill? n
  rw [hfill, Option.isSome_some]

/-- A word behind what a buffer holds. -/
def put (buffer : Bytes) (n : UInt64) : Bytes :=
  buffer ++ ((fill? n).get (isSome_fill? n)).written

/-- What is put into a buffer are the digits of the word. -/
theorem put_eq (buffer : Bytes) (n : UInt64) : put buffer n = buffer ++ ascii (digits n.toNat) := by
  obtain ⟨scratch, hfill, -, hwritten⟩ := exists_fill? n
  simp only [put, hfill, Option.get_some, hwritten]

end Decimal
end RespCodec
