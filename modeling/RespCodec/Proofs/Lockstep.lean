/-
# Decoders in lockstep

Readers that loop count their rounds, and how many rounds there are depends on the
size of the source.  As long as a reader has a round for each byte that is left, more
rounds make no difference: a round reads a byte, so the bytes run out first.

`Decoder.Lockstep n m d d'` says that of two decoders.  With fewer than `n` bytes in
front of them they take the same steps to the same end, and behind a result fewer
than `m` bytes are left.  It goes through a sequence (`Lockstep.bind`), and so from
the single reads to a whole unit (`unit_lockstep`), where the two decoders differ in
their rounds alone.

In lockstep no decoder fails but by refusing what it read or by asking for bytes that
are not there.  So on a list of bytes it either settles what the bytes are, and then
bytes behind them change nothing, or it uses them up (`Lockstep.settles`).
-/

import RespCodec.Decoder.Unit
import RespCodec.Proofs.Deliveries
import RespCodec.Proofs.Readings

namespace RespCodec
namespace Decoder

variable {α β : Type} {n m k : Nat}

/-- With fewer than `n` bytes to read, two decoders take the same steps, and one
that comes to a result leaves fewer than `m` bytes. -/
inductive Lockstep : (n m : Nat) → Decoder α → Decoder α → Prop
  | spent {m : Nat} {d d' : Decoder α} : Lockstep 0 m d d'
  | done {n m : Nat} (h : n ≤ m) (a : α) : Lockstep n m (done a) (done a)
  | refuse {n m : Nat} (violation : Violation) :
    Lockstep n m (fail (.violation violation)) (fail (.violation violation))
  | byte {n m : Nat} {next next' : UInt8 → Decoder α} (h : ∀ b, Lockstep n m (next b) (next' b)) :
    Lockstep (n + 1) m (byte next) (byte next')
  | span {n m : Nat} {wanted : Span} {next next' : Bytes → Decoder α}
    (h : ∀ text, Lockstep n m (next text) (next' text)) :
    Lockstep n m (span wanted next) (span wanted next')

namespace Lockstep

/-- With fewer bytes to read, and with more that may be left, nothing is different. -/
theorem mono {n' m' : Nat} {d d' : Decoder α} (h : Lockstep n m d d') (hn : n' ≤ n)
    (hm : m ≤ m') : Lockstep n' m' d d' := by
  induction h generalizing n' with
  | spent =>
    obtain rfl := Nat.le_zero.1 hn
    exact .spent
  | done hle a => exact .done (by omega) a
  | refuse violation => exact .refuse violation
  | byte _ ih =>
    cases n' with
    | zero => exact .spent
    | succ n' => exact .byte fun b => ih b (Nat.le_of_succ_le_succ hn) hm
  | span _ ih => exact .span fun text => ih text hn hm

/-- Two sequences are in lockstep if their parts are, the second on what the first
left. -/
theorem bind {d d' : Decoder α} {f f' : α → Decoder β} (hd : Lockstep n m d d')
    (hf : ∀ a, Lockstep m k (f a) (f' a)) : Lockstep n k (d.bind f) (d'.bind f') := by
  induction hd with
  | spent => exact .spent
  | done h a => exact (hf a).mono h (Nat.le_refl k)
  | refuse violation => exact .refuse violation
  | byte _ ih => exact .byte fun b => ih b hf
  | span _ ih => exact .span fun text => ih text hf

end Lockstep

/-! ## Readers -/

/-- A byte that is read is one byte fewer to read. -/
theorem nextByte_lockstep : Lockstep (n + 1) n nextByte nextByte :=
  .byte fun b => .done (Nat.le_refl n) b

/-- A span may be empty, so behind it there may be as many bytes as before. -/
theorem take_lockstep (wanted : Span) : Lockstep n n (take wanted) (take wanted) :=
  .span fun text => .done (Nat.le_refl n) text

/-- An expected byte is a byte, so behind it there is one fewer. -/
theorem expect_lockstep (expected : UInt8) :
    Lockstep n (n - 1) (expect expected) (expect expected) := by
  cases n with
  | zero => exact .spent
  | succ n =>
    refine nextByte_lockstep.bind fun found => ?_
    split
    · exact .done (Nat.le_refl n) ()
    · exact .refuse _

/-- Two bytes are taken.  That none comes back is all that is used. -/
theorem terminator_lockstep : Lockstep n n terminator terminator := by
  refine Lockstep.bind (expect_lockstep cr) fun _ => ?_
  exact (expect_lockstep lf).mono (Nat.le_refl _) (by omega)

/-- Where bytes are left there is a round for the first of them, and for each of the
others. -/
theorem exists_round {rounds : Nat} (h : n + 1 ≤ rounds) :
    ∃ left, rounds = left + 1 ∧ n ≤ left :=
  ⟨rounds - 1, by omega, by omega⟩

/-- A header reader with a round for each byte needs no more rounds.  By induction on the bytes:
every round starts with one, so both sides go on with a byte less and a round less. -/
theorem headerFrom_lockstep {rounds rounds' : Nat} (h : n ≤ rounds) (h' : n ≤ rounds')
    (numeral : Numeral) :
    Lockstep n n (headerFrom rounds numeral) (headerFrom rounds' numeral) := by
  induction n generalizing rounds rounds' numeral with
  | zero => exact .spent
  | succ n ih =>
    obtain ⟨rounds, rfl, hleft⟩ := exists_round h
    obtain ⟨rounds', rfl, hleft'⟩ := exists_round h'
    have hnext (numeral : Numeral) :
        Lockstep n (n + 1) (headerFrom rounds numeral) (headerFrom rounds' numeral) :=
      (ih hleft hleft' numeral).mono (Nat.le_refl n) (Nat.le_succ n)
    refine nextByte_lockstep.bind fun b => ?_
    split
    · split
      · exact hnext _
      · exact .refuse _
    split
    · refine (expect_lockstep lf).bind fun _ => ?_
      split
      · exact .done (by omega) _
      · exact .refuse _
    split
    · exact hnext _
    split
    · exact terminator_lockstep.bind fun _ => .done (Nat.le_succ n) _
    · exact .refuse _

/-- A whole header starts from a head without digits. -/
theorem header_lockstep {rounds rounds' : Nat} (h : n ≤ rounds) (h' : n ≤ rounds') :
    Lockstep n n (header rounds) (header rounds') := headerFrom_lockstep h h' .start

/-- A number is a header that was not left open. -/
theorem number_lockstep {rounds rounds' : Nat} (h : n ≤ rounds) (h' : n ≤ rounds')
    (marker : UInt8) : Lockstep n n (number rounds marker) (number rounds' marker) := by
  refine (header_lockstep h h').bind fun header => ?_
  cases header with
  | number value => exact .done (Nat.le_refl n) value
  | streamed => exact .refuse _

/-- A line does not loop, so its rounds are not a question. -/
theorem line_lockstep (limit : Nat) : Lockstep n n (line limit) (line limit) := by
  refine (take_lockstep _).bind fun text => ?_
  split
  · exact .refuse _
  split
  · exact .refuse _
  · exact .done (Nat.le_refl n) _

/-- A check reads nothing. -/
theorem checkLength_lockstep (limit length : Nat) :
    Lockstep n n (checkLength limit length) (checkLength limit length) := by
  unfold checkLength
  split
  · exact .refuse _
  · exact .done (Nat.le_refl n) ()

/-- A payload of no bytes still has its terminator, but that it takes any is not needed. -/
theorem payload_lockstep (length : Nat) :
    Lockstep n n (Decoder.payload length) (Decoder.payload length) := by
  refine (take_lockstep _).bind fun bytes => ?_
  exact terminator_lockstep.bind fun _ => .done (Nat.le_refl n) bytes

/-- Each fragment has a mark, so a round for each byte is a round for each fragment.  The headers
inside have rounds of their own, which must be enough as well. -/
theorem fragmentsFrom_lockstep {limit headerRounds headerRounds' rounds rounds' : Nat}
    (hheader : n ≤ headerRounds) (hheader' : n ≤ headerRounds') (h : n ≤ rounds)
    (h' : n ≤ rounds') (collected : Bytes) :
    Lockstep n n (fragmentsFrom limit headerRounds rounds collected)
      (fragmentsFrom limit headerRounds' rounds' collected) := by
  induction n generalizing rounds rounds' collected with
  | zero => exact .spent
  | succ n ih =>
    obtain ⟨rounds, rfl, hleft⟩ := exists_round h
    obtain ⟨rounds', rfl, hleft'⟩ := exists_round h'
    refine (expect_lockstep fragmentMark).bind fun _ => ?_
    -- the mark was the byte of this round
    rw [Nat.add_sub_cancel]
    refine (header_lockstep (Nat.le_of_succ_le hheader)
      (Nat.le_of_succ_le hheader')).bind fun header => ?_
    cases header with
    | streamed => exact .refuse _
    | number length =>
      dsimp only
      split
      · exact .refuse _
      split
      · exact .done (Nat.le_succ n) collected
      · refine (checkLength_lockstep _ _).bind fun _ => ?_
        refine (payload_lockstep _).bind fun fragment => ?_
        have hrest := ih (Nat.le_of_succ_le hheader) (Nat.le_of_succ_le hheader') hleft hleft'
        exact (hrest _).mono (Nat.le_refl n) (Nat.le_succ n)

/-- A blob by its length does not loop, and one in fragments has a round for each. -/
theorem blob_lockstep {rounds rounds' : Nat} (h : n ≤ rounds) (h' : n ≤ rounds') (limit : Nat) :
    Lockstep n n (blob limit rounds) (blob limit rounds') := by
  refine (header_lockstep h h').bind fun header => ?_
  cases header with
  | streamed =>
    refine (fragmentsFrom_lockstep h h' h h' []).bind fun bytes => ?_
    exact .done (Nat.le_refl n) (some bytes)
  | number length =>
    dsimp only
    split
    · exact .done (Nat.le_refl n) none
    · refine (checkLength_lockstep _ _).bind fun _ => ?_
      exact (payload_lockstep _).bind fun bytes => .done (Nat.le_refl n) (some bytes)

/-- A truth value is read without a loop. -/
theorem boolean_lockstep : Lockstep n n boolean boolean := by
  cases n with
  | zero => exact .spent
  | succ n =>
    refine nextByte_lockstep.bind fun b => ?_
    split
    · exact terminator_lockstep.bind fun _ => .done (Nat.le_succ n) _
    split
    · exact terminator_lockstep.bind fun _ => .done (Nat.le_succ n) _
    · exact .refuse _

/-! ## Aggregates -/

section Elements

variable {element element' : Decoder Value}

/-- Elements by count, where each takes a byte or more. -/
theorem elementsFrom_lockstep (helement : ∀ l ≤ n, Lockstep l (l - 1) element element')
    (count : Nat) (read : List Value) :
    Lockstep n n (elementsFrom element count read) (elementsFrom element' count read) := by
  induction count generalizing read with
  | zero => exact .done (Nat.le_refl n) _
  | succ count ih =>
    have hfirst := (helement n (Nat.le_refl n)).mono (Nat.le_refl n) (Nat.sub_le n 1)
    exact hfirst.bind fun value => ih (value :: read)

/-- Elements up to the end of a stream need a round for each.  By induction on the bytes, as an
element takes one at least. -/
theorem elementsToEnd_lockstep {rounds rounds' : Nat} (h : n ≤ rounds) (h' : n ≤ rounds')
    (helement : ∀ l ≤ n, Lockstep l (l - 1) element element') (read : List Value) :
    Lockstep n n (elementsToEnd element rounds read) (elementsToEnd element' rounds' read) := by
  induction n generalizing rounds rounds' read with
  | zero => exact .spent
  | succ n ih =>
    obtain ⟨rounds, rfl, hleft⟩ := exists_round h
    obtain ⟨rounds', rfl, hleft'⟩ := exists_round h'
    refine (helement (n + 1) (Nat.le_refl _)).bind fun value => ?_
    rw [Nat.add_sub_cancel]
    split
    · exact .done (Nat.le_succ n) _
    · have hrest := ih hleft hleft' fun l hl => helement l (Nat.le_succ_of_le hl)
      exact (hrest (value :: read)).mono (Nat.le_refl n) (Nat.le_succ n)

/-- Elements by count need no rounds, those in a stream one each. -/
theorem aggregate_lockstep {rounds rounds' : Nat} (h : n ≤ rounds) (h' : n ≤ rounds')
    (helement : ∀ l ≤ n, Lockstep l (l - 1) element element') (perEntry : Nat) :
    Lockstep n n (aggregate perEntry rounds element) (aggregate perEntry rounds' element') := by
  refine (header_lockstep h h').bind fun header => ?_
  cases header with
  | number length =>
    dsimp only
    split
    · exact .done (Nat.le_refl n) _
    · exact (elementsFrom_lockstep helement _ []).bind fun items => .done (Nat.le_refl n) _
  | streamed =>
    refine (elementsToEnd_lockstep h h' helement []).bind fun items => ?_
    split
    · exact .done (Nat.le_refl n) _
    · exact .refuse _

end Elements

/-! ## Units -/

variable {limits : Limits} {element? element?' : Option (Thunk (Decoder Value))}

/-- Readers of elements, if there are any, are in lockstep and take a byte or more. -/
def ElementsLockstep (n : Nat) : (element? element?' : Option (Thunk (Decoder Value))) → Prop :=
  Option.Rel fun element element' => ∀ l ≤ n, Lockstep l (l - 1) element.get element'.get

/-- With fewer bytes to read, elements are in lockstep still. -/
theorem ElementsLockstep.mono (h : ElementsLockstep n element? element?') (hm : m ≤ n) :
    ElementsLockstep m element? element?' := by
  cases h with
  | none => exact .none
  | some h => exact .some fun l hl => h l (Nat.le_trans hl hm)

/-- Whatever its form, a body with a round for each byte needs no more of them. -/
theorem body_lockstep {rounds rounds' : Nat} (h : n ≤ rounds) (h' : n ≤ rounds')
    (helements : ElementsLockstep n element? element?') (kind : Kind) :
    Lockstep n n (body limits rounds element? kind) (body limits rounds' element?' kind) := by
  unfold body
  split
  · exact (line_lockstep _).bind fun text => .done (Nat.le_refl n) _
  · refine (blob_lockstep h h' _).bind fun bytes? => ?_
    cases bytes? with
    | none => exact .done (Nat.le_refl n) _
    | some bytes => exact .done (Nat.le_refl n) _
  · exact (number_lockstep h h' _).bind fun value => .done (Nat.le_refl n) _
  · exact terminator_lockstep.bind fun _ => .done (Nat.le_refl n) _
  · exact boolean_lockstep
  · cases helements with
    | none => exact .refuse _
    | some helement => exact aggregate_lockstep h h' helement _

/-- A unit reader takes a marker before anything else, so a unit takes a byte or more. -/
theorem unitBehind_lockstep {bodyRounds bodyRounds' rounds rounds' : Nat} (hbody : n ≤ bodyRounds)
    (hbody' : n ≤ bodyRounds') (h : n ≤ rounds) (h' : n ≤ rounds')
    (helements : ElementsLockstep n element? element?') (pending : Option Value) :
    Lockstep n (n - 1) (unitBehind limits bodyRounds element? rounds pending)
      (unitBehind limits bodyRounds' element?' rounds' pending) := by
  induction n generalizing rounds rounds' pending with
  | zero => exact .spent
  | succ n ih =>
    obtain ⟨rounds, rfl, hleft⟩ := exists_round h
    obtain ⟨rounds', rfl, hleft'⟩ := exists_round h'
    have hbody := Nat.le_of_succ_le hbody
    have hbody' := Nat.le_of_succ_le hbody'
    have helements := helements.mono (Nat.le_succ n)
    refine nextByte_lockstep.bind fun b => ?_
    split
    · exact .refuse _
    rename_i kind _
    refine (body_lockstep hbody hbody' helements kind).bind fun data => ?_
    split
    -- the unit behind the attributes takes a byte more, which is more than is asked for
    · have hrest := ih hbody hbody' hleft hleft' helements (some (.ofData .attributes data))
      exact hrest.mono (Nat.le_refl n) (Nat.sub_le n 1)
    · exact .done (Nat.le_refl n) _

/-- Unit readers with a round for each byte differ in nothing.  By induction on the levels, as
elements are units with a level less. -/
theorem unit_lockstep {rounds rounds' : Nat} (h : n ≤ rounds) (h' : n ≤ rounds')
    (limits : Limits) (levels : Nat) :
    Lockstep n (n - 1) (unit limits rounds levels) (unit limits rounds' levels) := by
  induction levels generalizing n with
  | zero => exact unitBehind_lockstep h h' h h' .none none
  | succ levels ih =>
    refine unitBehind_lockstep h h' h h' (.some fun l hl => ?_) none
    exact ih (Nat.le_trans hl h) (Nat.le_trans hl h')

/-! ## Runs on bytes -/

/-- What a list of bytes leads to, beside what it leads to with `more` behind it.
Either the list settles it and leaves the other bytes alone, or it is used up. -/
inductive Settles (more : Bytes) :
    EStateM.Result Error Bytes α → EStateM.Result Error Bytes α → Prop
  | ok {a : α} {rest : Bytes} : Settles more (.ok a rest) (.ok a (rest ++ more))
  | refused {violation : Violation} {rest : Bytes} :
    Settles more (.error (.violation violation) rest) (.error (.violation violation) (rest ++ more))
  | cutShort {e : StreamError} {r : EStateM.Result Error Bytes α} (h : e.kind = .unexpectedEnd) :
    Settles more (.error (.stream e) []) r

/-- A span that is cut short is an unexpected end, whether it is a line or a payload. -/
theorem kind_cutShort (span : Span) : span.cutShort.kind = .unexpectedEnd := by
  cases span <;> rfl

/-- Decoders in lockstep settle what the bytes are, or use them up.  By induction on the reads:
one that the input can answer has the same answer with more bytes behind it. -/
theorem Lockstep.settles {d d' : Decoder α} (h : Lockstep n m d d') {input : Bytes}
    (hlength : input.length < n) (more : Bytes) :
    Settles more (d.run input) (d'.run (input ++ more)) := by
  induction h generalizing input with
  | spent => exact absurd hlength (Nat.not_lt_zero _)
  | done => exact .ok
  | refuse => exact .refused
  | byte _ ih =>
    cases input with
    | nil => exact .cutShort rfl
    | cons b input => exact ih b (Nat.lt_of_succ_lt_succ hlength)
  | span _ ih =>
    rename_i wanted next next' _
    -- a span that is complete stays what it is, one that is not has used up the input
    rcases Nat.lt_or_ge input.length (wanted.extent input) with hlt | hge
    · rw [run_span_of_lt hlt]
      exact .cutShort (kind_cutShort wanted)
    · have htake : ByteSource.span wanted (input ++ more) = .ok _ _ :=
        Bytes.takeSpan_append_of_le hge more
      rw [run_span_of_le hge, run_span, htake, resume]
      refine ih _ ?_
      rw [List.length_drop]
      omega

/-- Decoders in lockstep come to the same on bytes that are few enough.  So the rounds are no
part of what is decoded, as soon as there is one for each byte. -/
theorem Lockstep.run_eq {d d' : Decoder α} (h : Lockstep n m d d') {input : Bytes}
    (hlength : input.length < n) : d.run input = d'.run input := by
  induction h generalizing input with
  | spent => exact absurd hlength (Nat.not_lt_zero _)
  | done => rfl
  | refuse => rfl
  | byte _ ih =>
    cases input with
    | nil => rfl
    | cons b input => exact ih b (Nat.lt_of_succ_lt_succ hlength)
  | span _ ih =>
    rename_i wanted next next' _
    rcases Nat.lt_or_ge input.length (wanted.extent input) with hlt | hge
    · rw [run_span_of_lt hlt, run_span_of_lt hlt]
    · rw [run_span_of_le hge, run_span_of_le hge]
      refine ih _ ?_
      rw [List.length_drop]
      omega

end Decoder
end RespCodec
