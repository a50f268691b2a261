/-
# Headers accept their grammar

One round of a header reader can succeed in four ways (`run_headerFrom_succ_eq_ok`).
What it accepts is a header by induction on the rounds, where the reader stands behind
a sign and digits that a number may begin with (`headerFrom_sound`).  In the other
direction it takes such a sign and digits in a round for each byte (`run_header_head`),
and then there is one round left to look at (`header_exact`).
-/

import RespCodec.Proofs.Exactness
import RespCodec.Proofs.Numerals

namespace RespCodec
namespace Decoder

open Grammar

/-- How one round of a header reader can succeed: at a digit that still fits, at
the terminator of a number, at a minus sign, or at the mark of an open length. -/
theorem run_headerFrom_succ_eq_ok {rounds : Nat} {numeral : Numeral} {input rest : Bytes}
    {result : Header} :
    (headerFrom (rounds + 1) numeral).run input = .ok result rest ↔
      (∃ b tail digit next, input = b :: tail ∧ Decimal.digit? b = some digit ∧
        numeral.push? digit = some next ∧ (headerFrom rounds next).run tail = .ok result rest) ∨
      (∃ n, input = crlf ++ rest ∧ numeral.value? = some n ∧ result = .number n) ∨
      (∃ tail, input = minus :: tail ∧ numeral.isStart = true ∧
        (headerFrom rounds { numeral with negative := true }).run tail = .ok result rest) ∨
      (input = streamedMark :: (crlf ++ rest) ∧ numeral.isStart = true ∧ result = .streamed) := by
  simp only [headerFrom, bind_eq, run_bind_eq_ok, run_nextByte_eq_ok]
  constructor
  · rintro ⟨b, tail, rfl, h⟩
    split at h
    · rename_i digit hdigit
      split at h
      · rename_i next hpush
        exact .inl ⟨b, tail, digit, next, rfl, hdigit, hpush, h⟩
      · exact absurd h run_refuse_ne_ok
    split at h
    · rename_i hcr
      simp only [run_bind_eq_ok, run_expect_eq_ok] at h
      obtain ⟨_, _, rfl, h⟩ := h
      split at h
      · rename_i n hn
        cases h
        exact .inr (.inl ⟨n, by rw [hcr]; rfl, hn, rfl⟩)
      · exact absurd h run_refuse_ne_ok
    split at h
    · rename_i hb
      exact .inr (.inr (.inl ⟨tail, by rw [hb.1], hb.2, h⟩))
    split at h
    · rename_i hb
      simp only [run_bind_eq_ok, run_terminator_eq_ok, pure_eq_done] at h
      obtain ⟨_, _, rfl, h⟩ := h
      cases h
      exact .inr (.inr (.inr ⟨by rw [hb.1], hb.2, rfl⟩))
    · exact absurd h run_refuse_ne_ok
  · rintro (⟨b, tail, digit, next, rfl, hdigit, hpush, h⟩ | ⟨n, rfl, hn, rfl⟩ |
      ⟨tail, rfl, hstart, h⟩ | ⟨rfl, hstart, rfl⟩)
    · refine ⟨b, tail, rfl, ?_⟩
      simp only [hdigit, hpush]
      exact h
    · refine ⟨cr, lf :: rest, rfl, ?_⟩
      simp only [digit?_cr, if_pos, run_bind_eq_ok, run_expect_eq_ok]
      exact ⟨(), rest, rfl, by simp [hn]⟩
    · refine ⟨minus, tail, rfl, ?_⟩
      -- the branches are tried in turn, so a mark must not be a byte of an earlier one
      have hcr : minus ≠ cr := by decide
      simp only [digit?_minus, if_neg hcr, hstart, and_self, if_true]
      exact h
    · refine ⟨streamedMark, crlf ++ rest, rfl, ?_⟩
      have hcr : streamedMark ≠ cr := by decide
      have hminus : streamedMark ≠ minus := by decide
      simp only [digit?_streamedMark, if_neg hcr, hminus, hstart, and_true, if_false, if_true,
        run_bind_eq_ok, run_terminator_eq_ok]
      exact ⟨(), rest, rfl, rfl⟩

/-- The bytes of a header. -/
inductive HeaderBytes : Language Header
  | number {bytes : Bytes} {n : Int64} (h : Number bytes n.toInt) : HeaderBytes bytes (.number n)
  | streamed : HeaderBytes (streamedMark :: crlf) .streamed

/-- What is accepted behind a sign and digits makes a header of them.  By induction on the
rounds, with the sign and the digits left open, as each round adds to them. -/
theorem headerFrom_sound {rounds : Nat} {negative : Bool} {digits input rest : Bytes}
    {result : Header} (hhead : NumberHead negative digits)
    (h : (headerFrom rounds (.read negative digits)).run input = .ok result rest) :
    ∃ bytes, HeaderBytes (sign negative ++ digits ++ bytes) result ∧ input = bytes ++ rest := by
  -- the numeral of the reader is the sign and the digits read so far
  induction rounds generalizing negative digits input with
  | zero => cases h
  | succ rounds ih =>
    rcases run_headerFrom_succ_eq_ok.1 h with ⟨b, tail, digit, next, rfl, hdigit, hpush, h⟩ |
      ⟨n, rfl, hn, rfl⟩ | ⟨tail, rfl, hstart, h⟩ | ⟨rfl, hstart, rfl⟩
    · obtain ⟨hb, rfl⟩ := digit?_eq_some_iff.1 hdigit
      obtain ⟨hrange, rfl⟩ := (Numeral.push?_read_eq_some_iff hhead).1 hpush
      obtain ⟨bytes, hbytes, rfl⟩ := ih (numberHead_concat_iff.2 ⟨hhead, hb, hrange⟩) h
      exact ⟨b :: bytes, by simpa using hbytes, rfl⟩
    · obtain ⟨hne, rfl⟩ := Numeral.value?_read.1 hn
      exact ⟨crlf, .number (hhead.number hne), rfl⟩
    · obtain ⟨rfl, rfl⟩ := Numeral.isStart_read.1 hstart
      obtain ⟨bytes, hbytes, rfl⟩ := ih (numberHead_nil true) h
      exact ⟨minus :: bytes, hbytes, rfl⟩
    · obtain ⟨rfl, rfl⟩ := Numeral.isStart_read.1 hstart
      exact ⟨streamedMark :: crlf, .streamed, rfl⟩

/-- A digit that is pushed takes a round. -/
theorem run_headerFrom_digit {rounds digit : Nat} {numeral next : Numeral} {b : UInt8}
    {input : Bytes} (hdigit : Decimal.digit? b = some digit)
    (hpush : numeral.push? digit = some next) :
    (headerFrom (rounds + 1) numeral).run (b :: input) = (headerFrom rounds next).run input := by
  simp only [headerFrom, bind_eq, run_bind, run_nextByte_cons, hdigit, hpush]

/-- So do digits that a number may go on with, one each. -/
theorem run_headerFrom_digits {rounds : Nat} {negative : Bool} {digits more : Bytes}
    (h : NumberHead negative (digits ++ more)) (input : Bytes) :
    (headerFrom (rounds + more.length) (.read negative digits)).run (more ++ input) =
      (headerFrom rounds (.read negative (digits ++ more))).run input := by
  induction more generalizing digits with
  | nil => rw [List.append_nil, List.nil_append, List.length_nil, Nat.add_zero]
  | cons b more ih =>
    rw [List.append_cons] at h ⊢
    obtain ⟨hhead, hb, hrange⟩ := numberHead_concat_iff.1 h.of_append
    have hpush := (Numeral.push?_read_eq_some_iff hhead).2 ⟨hrange, rfl⟩
    rw [← ih h]
    exact run_headerFrom_digit (digit?_eq_some_iff.2 ⟨hb, rfl⟩) hpush

/-- A header reader takes a sign and digits that a number may begin with, and has a
round left for what follows. -/
theorem run_header_head {rounds : Nat} {negative : Bool} {digits input : Bytes}
    (h : NumberHead negative digits)
    (hlength : (sign negative ++ digits ++ input).length < rounds) :
    ∃ left, (header rounds).run (sign negative ++ digits ++ input) =
      (headerFrom (left + 1) (.read negative digits)).run input := by
  rw [List.length_append, List.length_append] at hlength
  -- the sign and each digit use up a round
  obtain ⟨left, rfl⟩ : ∃ left, rounds = left + 1 + digits.length + (sign negative).length :=
    ⟨rounds - (1 + digits.length + (sign negative).length), by omega⟩
  have hdigits : (headerFrom (left + 1 + digits.length) (.read negative [])).run (digits ++ input) =
      (headerFrom (left + 1) (.read negative digits)).run input := run_headerFrom_digits h input
  refine ⟨left, Eq.trans ?_ hdigits⟩
  cases negative with
  | false => rfl
  | true =>
    show (headerFrom (left + 1 + digits.length + 1) .start).run (minus :: (digits ++ input)) = _
    have hcr : minus ≠ cr := by decide
    simp only [headerFrom, bind_eq, run_bind, run_nextByte_cons, digit?_minus, if_neg hcr]
    rfl

/-- A header reader accepts a number, or the mark of an open length.  What is accepted is right
with any number of rounds.  The other way a number is split into its head and its terminator,
and the head takes a round for each byte. -/
theorem header_exact (rounds : Nat) : Exact rounds (header rounds) HeaderBytes := by
  constructor
  · intro input rest result h
    exact headerFrom_sound (numberHead_nil false) h
  · intro head rest result h hlength
    cases h with
    | number h =>
      rename_i n
      obtain ⟨negative, digits, hhead, hne, rfl, hn⟩ := number_iff.1 h
      rw [List.append_assoc] at hlength ⊢
      -- a number is its head, read in full, and then the terminator
      obtain ⟨left, hrun⟩ := run_header_head hhead hlength
      have hvalue : (Numeral.read negative digits).value? = some n :=
        Numeral.value?_read.2 ⟨hne, by rw [← hn, Int64.ofInt_toInt]⟩
      rw [hrun]
      exact run_headerFrom_succ_eq_ok.2 (.inr (.inl ⟨_, rfl, hvalue, rfl⟩))
    | streamed =>
      cases rounds with
      | zero => exact absurd hlength (Nat.not_lt_zero _)
      | succ rounds => exact run_headerFrom_succ_eq_ok.2 (.inr (.inr (.inr ⟨rfl, rfl, rfl⟩)))

/-- A reader that wants a number accepts a number. -/
theorem number_exact (rounds : Nat) (marker : UInt8) :
    Exact rounds (number rounds marker) fun bytes n => Number bytes n.toInt := by
  constructor
  · intro input rest n h
    simp only [number, bind_eq, run_bind_eq_ok] at h
    obtain ⟨header, middle, hheader, h⟩ := h
    obtain ⟨head, hhead, rfl⟩ := (header_exact rounds).sound hheader
    cases hhead with
    | number hn =>
      cases h
      exact ⟨head, hn, rfl⟩
    | streamed => exact absurd h run_refuse_ne_ok
  · intro head rest n hn hlength
    simp only [number, bind_eq, run_bind_eq_ok]
    exact ⟨.number n, rest, (header_exact rounds).complete (.number hn) hlength, rfl⟩

/-- The sign of a word is that of the integer that it stands for. -/
theorem lt_zero_iff_toInt {n : Int64} : n < 0 ↔ n.toInt < 0 := by
  rw [Int64.lt_iff_toInt_lt, Int64.toInt_zero]

/-- A word is zero if the integer that it stands for is. -/
theorem eq_zero_iff_toInt {n : Int64} : n = 0 ↔ n.toInt = 0 := by
  rw [← Int64.toInt_inj, Int64.toInt_zero]

/-- A length that is read is a number that is not negative. -/
theorem number_toNat {head : Bytes} {n : Int64} (h : Number head n.toInt) (hneg : ¬n < 0) :
    Number head n.toInt.toNat := by
  rw [lt_zero_iff_toInt] at hneg
  have hn : (n.toInt.toNat : Int) = n.toInt := by omega
  rwa [hn]

/-- A number of the grammar is read as a header. -/
theorem exists_header_of_number {rounds : Nat} {head rest : Bytes} {x : Int} (h : Number head x)
    (hlength : (head ++ rest).length < rounds) :
    ∃ n : Int64, n.toInt = x ∧ (header rounds).run (head ++ rest) = .ok (.number n) rest := by
  have hx := Int64.toInt_ofInt_of_le h.bounds.1 h.bounds.2
  rw [← hx] at h
  exact ⟨.ofInt x, hx, (header_exact rounds).complete (.number h) hlength⟩

/-- So is a length, as a number that is not negative. -/
theorem exists_header_of_length {rounds length : Nat} {head rest : Bytes} (h : Number head length)
    (hlength : (head ++ rest).length < rounds) :
    ∃ n : Int64, ¬n < 0 ∧ n.toInt.toNat = length ∧
      (header rounds).run (head ++ rest) = .ok (.number n) rest := by
  obtain ⟨n, hn, hrun⟩ := exists_header_of_number h hlength
  refine ⟨n, ?_, ?_, hrun⟩
  · rw [lt_zero_iff_toInt]
    omega
  · rw [hn, Int.toNat_natCast]

end Decoder
end RespCodec
