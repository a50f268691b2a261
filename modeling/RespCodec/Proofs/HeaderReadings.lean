/-
# What a header reader makes of any bytes

A header reader gives a header, refuses a byte, or runs out of bytes.  Which of them,
at which byte, and what is left there, `HeaderReading` says with one rule for each way
to end, over digits and the integers that they stand for:

| behind | the bytes | come to |
| --- | --- | --- |
| a sign, digits | `CR LF` | a number |
| a sign | `CR LF` | a number without a digit |
| a sign, digits | the first digit that leaves the range | an overflow |
| a sign, digits | `CR` and a byte other than `LF` | an unexpected byte |
| a sign, digits | another byte | an unexpected number byte |
| nothing | `?` `CR LF` | an open length |
| nothing | `?` and other bytes | an unexpected byte |

and to the end of the stream where the bytes end first.

Any bytes have a reading (`exists_headerReading_of_head`), and a header reader follows
every rule (`HeaderReading.run_eq`).  So a header reader comes to a result just where
the rules say so (`run_header_eq_iff`).
-/

import RespCodec.Proofs.Headers

namespace RespCodec
namespace Decoder

open Grammar

/-- What comes of reading a header from any bytes, and the bytes left behind it. -/
inductive HeaderReading : Bytes → EStateM.Result Error Bytes Header → Prop
  /-- A number that fits in 64 bits. -/
  | number {head rest : Bytes} {n : Int64} (h : Number head n.toInt) :
    HeaderReading (head ++ rest) (.ok (.number n) rest)
  | streamed {rest : Bytes} : HeaderReading (streamedMark :: crlf ++ rest) (.ok .streamed rest)
  /-- The first digit that takes the value out of range. -/
  | integerOverflow {negative : Bool} {digits rest : Bytes} {b : UInt8}
    (h : NumberHead negative digits) (hb : IsDigit b)
    (hrange : ¬InRange (signed negative (digits ++ [b]))) :
    HeaderReading (sign negative ++ digits ++ b :: rest) (.error (.violation .integerOverflow) rest)
  /-- A terminator before any digit. -/
  | emptyNumber {negative : Bool} {rest : Bytes} :
    HeaderReading (sign negative ++ crlf ++ rest) (.error (.violation .emptyNumber) rest)
  /-- A carriage return without its line feed. -/
  | loneReturn {negative : Bool} {digits rest : Bytes} {b : UInt8}
    (h : NumberHead negative digits) (hb : b ≠ lf) :
    HeaderReading (sign negative ++ digits ++ cr :: b :: rest)
      (.error (.violation (.unexpectedByte lf b)) rest)
  /-- The mark of an open length without its terminator. -/
  | streamedNoReturn {rest : Bytes} {b : UInt8} (hb : b ≠ cr) :
    HeaderReading (streamedMark :: b :: rest) (.error (.violation (.unexpectedByte cr b)) rest)
  | streamedLoneReturn {rest : Bytes} {b : UInt8} (hb : b ≠ lf) :
    HeaderReading (streamedMark :: cr :: b :: rest)
      (.error (.violation (.unexpectedByte lf b)) rest)
  /-- A byte that no number goes on with.  A minus sign and the mark of an open length
  may stand first. -/
  | unexpectedNumberByte {negative : Bool} {digits rest : Bytes} {b : UInt8}
    (h : NumberHead negative digits) (hdigit : ¬IsDigit b) (hcr : b ≠ cr)
    (hfirst : negative = false ∧ digits = [] → b ≠ minus ∧ b ≠ streamedMark) :
    HeaderReading (sign negative ++ digits ++ b :: rest)
      (.error (.violation (.unexpectedNumberByte b)) rest)
  /-- The bytes end before a terminator does. -/
  | cutShort {negative : Bool} {digits ending : Bytes} (h : NumberHead negative digits)
    (hending : ending = [] ∨ ending = [cr]) :
    HeaderReading (sign negative ++ digits ++ ending) (.error (.stream .endOfStream) [])
  | streamedCutShort {ending : Bytes} (hending : ending = [] ∨ ending = [cr]) :
    HeaderReading (streamedMark :: ending) (.error (.stream .endOfStream) [])

/-! ## Every input has a reading -/

/-- A number and a carriage return are read in one of the ways, by what stands behind them and by
whether the number has digits. -/
theorem exists_headerReading_cr {negative : Bool} {digits : Bytes} (h : NumberHead negative digits)
    (input : Bytes) : ∃ result, HeaderReading (sign negative ++ digits ++ cr :: input) result := by
  cases input with
  | nil => exact ⟨_, .cutShort h (.inr rfl)⟩
  | cons b rest =>
    by_cases hb : b = lf
    · have hcrlf : sign negative ++ digits ++ cr :: b :: rest =
          sign negative ++ digits ++ crlf ++ rest := by simp [hb, crlf]
      rw [hcrlf]
      by_cases hne : digits = []
      · rw [hne, List.append_nil]
        exact ⟨_, .emptyNumber⟩
      · exact ⟨_, .number (h.number hne)⟩
    · exact ⟨_, .loneReturn h hb⟩

/-- So is the mark of an open length, which has to be the whole of the header: the ways differ in
where the terminator behind it breaks off. -/
theorem exists_headerReading_streamedMark (input : Bytes) :
    ∃ result, HeaderReading (streamedMark :: input) result := by
  cases input with
  | nil => exact ⟨_, .streamedCutShort (.inl rfl)⟩
  | cons b input =>
    by_cases hb : b = cr
    · subst hb
      cases input with
      | nil => exact ⟨_, .streamedCutShort (.inr rfl)⟩
      | cons c rest =>
        by_cases hc : c = lf
        · subst hc
          exact ⟨_, .streamed⟩
        · exact ⟨_, .streamedLoneReturn hc⟩
    · exact ⟨_, .streamedNoReturn hb⟩

/-- Byte by byte: a byte makes the head longer, or it settles the reading. -/
theorem exists_headerReading_of_head {negative : Bool} {digits : Bytes}
    (h : NumberHead negative digits) (input : Bytes) :
    ∃ result, HeaderReading (sign negative ++ digits ++ input) result := by
  induction input generalizing negative digits with
  | nil => exact ⟨_, .cutShort h (.inl rfl)⟩
  | cons b input ih =>
    -- in the order in which the reader asks: a digit, the return, a mark at the start
    by_cases hdigit : IsDigit b
    · by_cases hrange : InRange (signed negative (digits ++ [b]))
      · have hnext := ih (numberHead_concat_iff.2 ⟨h, hdigit, hrange⟩)
        rwa [← List.append_assoc, ← List.append_cons] at hnext
      · exact ⟨_, .integerOverflow h hdigit hrange⟩
    by_cases hcr : b = cr
    · rw [hcr]
      exact exists_headerReading_cr h input
    by_cases hfirst : (negative = false ∧ digits = []) ∧ (b = minus ∨ b = streamedMark)
    · obtain ⟨⟨rfl, rfl⟩, rfl | rfl⟩ := hfirst
      · exact ih (numberHead_nil true)
      · exact exists_headerReading_streamedMark input
    · refine ⟨_, .unexpectedNumberByte h hdigit hcr fun hstart => ?_⟩
      rw [← not_or]
      exact fun hb => hfirst ⟨hstart, hb⟩

/-! ## The round that ends a header -/

/-- A digit that does not fit is refused. -/
theorem run_headerFrom_overflow {negative : Bool} {digits : Bytes} {b : UInt8}
    (h : NumberHead negative digits) (hb : IsDigit b)
    (hrange : ¬InRange (signed negative (digits ++ [b]))) (rounds : Nat) (input : Bytes) :
    (headerFrom (rounds + 1) (.read negative digits)).run (b :: input) =
      .error (.violation .integerOverflow) input := by
  have hdigit := digit?_eq_some_iff.2 ⟨hb, rfl⟩
  have hpush : (Numeral.read negative digits).push? (b.toNat - 0x30) = none :=
    Option.eq_none_iff_forall_ne_some.2 fun next hnext =>
      hrange ((Numeral.push?_read_eq_some_iff h).1 hnext).1
  simp only [headerFrom, bind_eq, run_bind, run_nextByte_cons, hdigit, hpush]
  rfl

/-- A carriage return wants a line feed behind it, and then a digit before it. -/
theorem run_headerFrom_cr (rounds : Nat) (numeral : Numeral) (input : Bytes) :
    (headerFrom (rounds + 1) numeral).run (cr :: input) =
      match (expect lf).run input with
      | .ok _ rest =>
        match numeral.value? with
        | some n => .ok (.number n) rest
        | none => .error (.violation .emptyNumber) rest
      | .error e rest => .error e rest := by
  simp only [headerFrom, bind_eq, run_bind, run_nextByte_cons, digit?_cr, if_true]
  cases (expect lf).run input with
  | error => rfl
  | ok _ rest =>
    dsimp only
    cases numeral.value? <;> rfl

/-- A sign and the mark of an open length are refused behind a sign or a digit, and
other bytes anywhere. -/
theorem run_headerFrom_unexpected {negative : Bool} {digits : Bytes} {b : UInt8}
    (hdigit : ¬IsDigit b) (hcr : b ≠ cr)
    (hfirst : negative = false ∧ digits = [] → b ≠ minus ∧ b ≠ streamedMark) (rounds : Nat)
    (input : Bytes) :
    (headerFrom (rounds + 1) (.read negative digits)).run (b :: input) =
      .error (.violation (.unexpectedNumberByte b)) input := by
  have hnone : Decimal.digit? b = none :=
    Option.eq_none_iff_forall_ne_some.2 fun digit hsome => hdigit (digit?_eq_some_iff.1 hsome).1
  have hminus : ¬(b = minus ∧ (Numeral.read negative digits).isStart = true) := fun hb =>
    (hfirst (Numeral.isStart_read.1 hb.2)).1 hb.1
  have hmark : ¬(b = streamedMark ∧ (Numeral.read negative digits).isStart = true) := fun hb =>
    (hfirst (Numeral.isStart_read.1 hb.2)).2 hb.1
  simp only [headerFrom, bind_eq, run_bind, run_nextByte_cons, hnone, if_neg hcr, if_neg hminus,
    if_neg hmark]
  rfl

/-- The mark of an open length wants a terminator. -/
theorem run_header_streamedMark {rounds : Nat} (h : 0 < rounds) (input : Bytes) :
    (header rounds).run (streamedMark :: input) =
      (terminator.bind fun _ => done .streamed).run input := by
  obtain ⟨left, rfl⟩ := Nat.exists_eq_add_one_of_ne_zero (Nat.ne_of_gt h)
  have hcr : streamedMark ≠ cr := by decide
  have hminus : streamedMark ≠ minus := by decide
  have hstart : Numeral.start.isStart = true := rfl
  simp only [header, headerFrom, bind_eq, run_bind, run_nextByte_cons, digit?_streamedMark,
    if_neg hcr, hminus, hstart, and_true, if_false, if_true, pure_eq_done]

/-- A header reader gives the reading of its input.  The head takes as many rounds as it has
bytes, and there is one left for the byte that settles the reading. -/
theorem HeaderReading.run_eq {rounds : Nat} {input : Bytes}
    {result : EStateM.Result Error Bytes Header} (h : HeaderReading input result)
    (hlength : input.length < rounds) : (header rounds).run input = result := by
  have hrounds : 0 < rounds := Nat.zero_lt_of_lt hlength
  cases h with
  | number h => exact (header_exact rounds).complete (.number h) hlength
  | streamed => exact (header_exact rounds).complete .streamed hlength
  | integerOverflow h hb hrange =>
    obtain ⟨left, hrun⟩ := run_header_head h hlength
    rw [hrun, run_headerFrom_overflow h hb hrange]
  | emptyNumber =>
    rename_i negative rest
    rw [← List.append_nil (sign negative), List.append_assoc] at hlength ⊢
    obtain ⟨left, hrun⟩ := run_header_head (numberHead_nil negative) hlength
    rw [hrun]
    exact run_headerFrom_cr left _ (lf :: rest)
  | loneReturn h hb =>
    obtain ⟨left, hrun⟩ := run_header_head h hlength
    rw [hrun, run_headerFrom_cr, run_expect_cons, if_neg hb]
  | streamedNoReturn hb =>
    simp only [run_header_streamedMark hrounds, terminator, bind_eq, run_bind, run_expect_cons,
      if_neg hb]
  | streamedLoneReturn hb =>
    simp only [run_header_streamedMark hrounds, terminator, bind_eq, run_bind, run_expect_cons,
      if_true, if_neg hb]
  | unexpectedNumberByte h hdigit hcr hfirst =>
    obtain ⟨left, hrun⟩ := run_header_head h hlength
    rw [hrun, run_headerFrom_unexpected hdigit hcr hfirst]
  | cutShort h hending =>
    obtain ⟨left, hrun⟩ := run_header_head h hlength
    rw [hrun]
    rcases hending with rfl | rfl
    · rfl
    · rfl
  | streamedCutShort hending =>
    rw [run_header_streamedMark hrounds]
    rcases hending with rfl | rfl
    · rfl
    · rfl

/-- Numeric headers: **a header reader with a round for each byte comes to the one
reading that its input has.** -/
theorem run_header_eq_iff {rounds : Nat} {input : Bytes}
    {result : EStateM.Result Error Bytes Header} (hlength : input.length < rounds) :
    (header rounds).run input = result ↔ HeaderReading input result := by
  constructor
  · rintro rfl
    obtain ⟨result, hreading⟩ := exists_headerReading_of_head (numberHead_nil false) input
    rwa [← hreading.run_eq hlength] at hreading
  · intro h
    exact h.run_eq hlength

/-- The smallest number is in range, and with its sign away the last digit is not. -/
theorem run_header_smallest :
    (header 25).run (ascii "-09223372036854775808\r\n*".toList) =
        .ok (.number Int64.minValue) (ascii ['*']) ∧
      (header 25).run (ascii "09223372036854775808\r\n*".toList) =
        .error (.violation .integerOverflow) (ascii "\r\n*".toList) := by
  have hsmallest : NumberHead true (ascii "09223372036854775808".toList) := by decide
  have hbefore : NumberHead false (ascii "0922337203685477580".toList) := by decide
  have hnumber : Number _ Int64.minValue.toInt :=
    number_iff.2 ⟨true, _, hsmallest, by decide, rfl, by decide⟩
  have hdigit : IsDigit '8'.toUInt8 := by decide
  have hrange : ¬InRange (signed false (ascii "0922337203685477580".toList ++ ['8'.toUInt8])) := by
    decide
  exact ⟨(run_header_eq_iff (by decide)).2 (.number hnumber),
    (run_header_eq_iff (by decide)).2 (.integerOverflow hbefore hdigit hrange)⟩

end Decoder
end RespCodec
