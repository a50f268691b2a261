/-
# What a refusal says of the bytes

A violation names a byte or a number, and it is found at a place.  What it names is what was
there, and the place is right behind the bytes that show it:

| violation | the bytes taken |
| --- | --- |
| unknown marker, invalid boolean, unexpected byte | end in that byte, which may not stand there |
| unexpected number byte | end in that byte, or in a negative length of a fragment |
| integer overflow | end in a digit |
| missing terminator | end in a line feed without a carriage return before it |
| number without digits | end in `CR LF` |
| open length | end in `? CR LF` |
| nesting too deep | end in the marker of an aggregate |

The other two, a blob that is too long and a key without a value, name lengths that break
their rule.

`Violation.Shown` says so for each violation.  Elements are read behind the bytes of the
aggregate around them, and their violations pass through it, so what a reader refuses is
judged together with the bytes taken in front of it (`Decoder.Justified`).  That goes through a
sequence if each part refuses only what is shown (`Justified.bind`), and so from the readers of
headers and lines to a whole unit.
-/

import RespCodec.Proofs.Acceptance
import RespCodec.Proofs.HeaderReadings
import RespCodec.Proofs.LineReadings

namespace RespCodec

open Grammar

/-- What a violation says of the bytes that were taken before it was found, and of the limits. -/
def Violation.Shown (limits : Limits) (taken : Bytes) : Violation → Prop
  | unknownMarker b => [b] <:+ taken ∧ ∀ kind : Kind, kind.marker ≠ b
  | missingCrlf => ∃ b, b ≠ cr ∧ [b, lf] <:+ taken
  | unexpectedNumberByte b =>
    [b] <:+ taken ∧ ¬IsDigit b ∧ b ≠ cr ∨
      b = Decoder.minus ∧ ∃ head n, Number head n ∧ n < 0 ∧ Decoder.fragmentMark :: head <:+ taken
  | unexpectedByte expected b =>
    [b] <:+ taken ∧ b ≠ expected ∧
      (expected = cr ∨ expected = lf ∨ expected = Decoder.fragmentMark)
  | emptyNumber => crlf <:+ taken
  | integerOverflow => ∃ b, IsDigit b ∧ [b] <:+ taken
  | unexpectedStreamedLength marker =>
    (marker = Kind.integer.marker ∨ marker = Decoder.fragmentMark) ∧
      Decoder.streamedMark :: crlf <:+ taken
  | invalidBoolean b => [b] <:+ taken ∧ b ≠ 't'.toUInt8 ∧ b ≠ 'f'.toUInt8
  | oddMapLength elements => elements % 2 = 1
  | nestingTooDeep limit =>
    limit = limits.maxDepth ∧ ∃ kind : Kind, kind.isAggregate = true ∧ [kind.marker] <:+ taken
  | blobTooLarge length limit => limit = limits.maxBlobLength ∧ limit < length

variable {limits : Limits} {before taken : Bytes}

/-- What the last bytes show does not depend on those in front of them. -/
theorem Violation.Shown.behind {violation : Violation} (h : violation.Shown limits taken)
    (before : Bytes) : violation.Shown limits (before ++ taken) := by
  have hsuffix {bytes : Bytes} (h : bytes <:+ taken) : bytes <:+ before ++ taken :=
    h.trans (List.suffix_append before taken)
  -- all but the last two are shown by the end of what was taken
  cases violation with
  | unknownMarker => exact ⟨hsuffix h.1, h.2⟩
  | missingCrlf =>
    obtain ⟨b, hb, hlast⟩ := h
    exact ⟨b, hb, hsuffix hlast⟩
  | unexpectedNumberByte =>
    rcases h with ⟨hlast, hb⟩ | ⟨hb, head, n, hhead, hn, hlast⟩
    · exact .inl ⟨hsuffix hlast, hb⟩
    · exact .inr ⟨hb, head, n, hhead, hn, hsuffix hlast⟩
  | unexpectedByte => exact ⟨hsuffix h.1, h.2⟩
  | emptyNumber => exact hsuffix h
  | integerOverflow =>
    obtain ⟨b, hb, hlast⟩ := h
    exact ⟨b, hb, hsuffix hlast⟩
  | unexpectedStreamedLength => exact ⟨h.1, hsuffix h.2⟩
  | invalidBoolean => exact ⟨hsuffix h.1, h.2⟩
  | nestingTooDeep =>
    obtain ⟨hlimit, kind, hkind, hlast⟩ := h
    exact ⟨hlimit, kind, hkind, hsuffix hlast⟩
  | oddMapLength | blobTooLarge => exact h

namespace Decoder

variable {α β : Type} {rounds : Nat}

/-- A run on bytes takes some of them and leaves the others. -/
theorem exists_taken (d : Decoder α) (input : Bytes) :
    ∃ taken, input = taken ++ stateAfter (d.run input) := by
  induction d generalizing input with
  | done | fail => exact ⟨[], rfl⟩
  | byte next ih =>
    cases input with
    | nil => exact ⟨[], rfl⟩
    | cons b input =>
      obtain ⟨taken, htaken⟩ := ih b input
      exact ⟨b :: taken, congrArg (b :: ·) htaken⟩
  | span wanted next ih =>
    -- a span that is cut short takes all that there is
    rcases Nat.lt_or_ge input.length (wanted.extent input) with hlt | hge
    · rw [run_span_of_lt hlt]
      exact ⟨input, (List.append_nil input).symm⟩
    · obtain ⟨taken, htaken⟩ := ih (input.take (wanted.extent input))
        (input.drop (wanted.extent input))
      refine ⟨input.take (wanted.extent input) ++ taken, ?_⟩
      rw [run_span_of_le hge, List.append_assoc, ← htaken, List.take_append_drop]

/-- Behind the bytes `before`, a decoder refuses only what these and the bytes that it has
taken show.  It has a round for each byte. -/
def Justified (limits : Limits) (rounds : Nat) (before : Bytes) (d : Decoder α) : Prop :=
  ∀ (taken rest : Bytes) (violation : Violation), (taken ++ rest).length < rounds →
    d.run (taken ++ rest) = .error (.violation violation) rest →
    violation.Shown limits (before ++ taken)

/-- A result is no refusal. -/
theorem justified_done (a : α) : Justified limits rounds before (done a) := by
  intro taken rest violation _ h
  cases h

/-- Running out of rounds is an end of the stream, which is no violation. -/
theorem justified_outOfRounds : Justified limits rounds before (outOfRounds : Decoder α) := by
  intro taken rest violation _ h
  cases h

/-- A refusal takes nothing more, so the bytes in front of it have to show what it says. -/
theorem justified_refuse {violation : Violation} (h : violation.Shown limits before) :
    Justified limits rounds before (refuse violation : Decoder α) := by
  intro taken rest refused _ hrun
  obtain ⟨hrefused, hrest⟩ := EStateM.Result.error.inj hrun
  obtain rfl := Error.violation.inj hrefused
  rw [List.append_left_eq_self.1 hrest, List.append_nil]
  exact h

/-- A byte that is missing is an end of the stream. -/
theorem justified_nextByte : Justified limits rounds before nextByte := by
  intro taken rest violation _ h
  generalize taken ++ rest = input at h
  cases input with
  | nil => cases h
  | cons => cases h

/-- So is a span that is cut short. -/
theorem justified_take (span : Span) : Justified limits rounds before (take span) := by
  intro taken rest violation _ h
  rw [take, run_span] at h
  generalize ByteSource.span span (taken ++ rest) = result at h
  cases result with
  | ok => cases h
  | error => cases h

/-- A sequence refuses what is shown if its parts do, the second behind what the first took.  So
each reader is looked at by itself, with the bytes in front of it handed along. -/
theorem Justified.bind {d : Decoder α} {f : α → Decoder β} (hd : Justified limits rounds before d)
    (hf : ∀ a head rest, d.run (head ++ rest) = .ok a rest →
      Justified limits rounds (before ++ head) (f a)) :
    Justified limits rounds before (d.bind f) := by
  intro taken rest violation hlength h
  rw [run_bind] at h
  cases hrun : d.run (taken ++ rest) with
  | error e left =>
    rw [hrun] at h
    cases h
    exact hd taken rest violation hlength hrun
  | ok a left =>
    rw [hrun] at h
    dsimp only at h
    -- what was taken is what the first part took, and then the second
    obtain ⟨head, hhead⟩ := d.exists_taken (taken ++ rest)
    obtain ⟨tail, htail⟩ := (f a).exists_taken left
    rw [hrun] at hhead
    rw [h] at htail
    obtain rfl : left = tail ++ rest := htail
    obtain rfl : taken = head ++ tail := by
      rw [stateAfter, ← List.append_assoc] at hhead
      exact List.append_cancel_right hhead
    rw [List.append_assoc] at hrun hlength
    rw [← List.append_assoc]
    refine hf a head (tail ++ rest) hrun tail rest violation ?_ h
    rw [List.length_append] at hlength
    omega

/-! ## Fields -/

/-- The byte that was found stands at the end of what was taken, and is another than the one
expected, of which there are three. -/
theorem justified_expect {expected : UInt8}
    (hexpected : expected = cr ∨ expected = lf ∨ expected = fragmentMark) :
    Justified limits rounds before (expect expected) := by
  refine justified_nextByte.bind fun b head rest hrun => ?_
  obtain rfl : head = [b] := List.append_cancel_right (run_nextByte_eq_ok.1 hrun)
  split
  · exact justified_done ()
  · rename_i hb
    exact justified_refuse ⟨List.suffix_append before [b], hb, hexpected⟩

/-- A terminator expects its two bytes in turn. -/
theorem justified_terminator : Justified limits rounds before terminator :=
  (justified_expect (.inl rfl)).bind fun _ _ _ _ => justified_expect (.inr (.inl rfl))

/-- A header is refused at its last byte. -/
theorem HeaderReading.shown {input rest : Bytes} {violation : Violation}
    (h : HeaderReading input (.error (.violation violation) rest)) :
    ∃ taken, input = taken ++ rest ∧ violation.Shown limits taken := by
  -- the bytes taken are the input up to the byte that settles the reading
  cases h with
  | integerOverflow _ hb _ =>
    exact ⟨_, List.append_cons .., _, hb, List.suffix_append _ _⟩
  | emptyNumber => exact ⟨_, rfl, List.suffix_append _ _⟩
  | loneReturn _ hb =>
    rename_i negative digits b _
    have hsplit : sign negative ++ digits ++ cr :: b :: rest =
        sign negative ++ digits ++ [cr] ++ [b] ++ rest := by simp
    exact ⟨_, hsplit, List.suffix_append _ _, hb, .inr (.inl rfl)⟩
  | streamedNoReturn hb =>
    rename_i b
    exact ⟨[streamedMark, b], rfl, List.suffix_append [streamedMark] [b], hb, .inl rfl⟩
  | streamedLoneReturn hb =>
    rename_i b
    exact ⟨[streamedMark, cr, b], rfl, List.suffix_append [streamedMark, cr] [b], hb,
      .inr (.inl rfl)⟩
  | unexpectedNumberByte _ hdigit hcr _ =>
    exact ⟨_, List.append_cons .., .inl ⟨List.suffix_append _ _, hdigit, hcr⟩⟩

/-- Each way for a header to end is one of `HeaderReading`, and shows what it is refused for. -/
theorem justified_header : Justified limits rounds before (header rounds) := by
  intro taken rest violation hlength h
  obtain ⟨result, hreading⟩ := exists_headerReading_of_head (numberHead_nil false) (taken ++ rest)
  obtain rfl : result = _ := (hreading.run_eq hlength).symm.trans h
  obtain ⟨head, hhead, hshown⟩ := hreading.shown
  obtain rfl : taken = head := List.append_cancel_right hhead
  exact hshown.behind before

/-- What an exact decoder takes is in its language. -/
theorem Exact.language_taken {d : Decoder α} {language : Language α} (h : Exact rounds d language)
    {head rest : Bytes} {a : α} (hrun : d.run (head ++ rest) = .ok a rest) : language head a := by
  obtain ⟨bytes, hbytes, hhead⟩ := h.sound hrun
  rwa [List.append_cancel_right hhead]

/-- A number may not be left open, and the mark of that is then the end of what was taken. -/
theorem justified_number {marker : UInt8} (hmarker : marker = Kind.integer.marker) :
    Justified limits rounds before (number rounds marker) := by
  refine justified_header.bind fun header head rest hheader => ?_
  cases (header_exact rounds).language_taken hheader with
  | number => exact justified_done _
  | streamed => exact justified_refuse ⟨.inl hmarker, List.suffix_append before _⟩

/-- A line is refused behind a line feed or for its length.  If the line feed is its first byte,
the byte before it is that of the marker. -/
theorem LineReading.shown {input rest : Bytes} {violation : Violation} {marker : UInt8}
    (hmarker : marker ≠ cr)
    (h : LineReading limits.maxBlobLength input (.error (.violation violation) rest)) :
    ∃ taken, input = taken ++ rest ∧ violation.Shown limits (marker :: taken) := by
  cases h with
  | missingCrlf hlf hwindow hcr =>
    rename_i front
    refine ⟨front ++ [lf], List.append_cons .., ?_⟩
    rcases front.eq_nil_or_concat with rfl | ⟨front, b, rfl⟩
    · exact ⟨marker, hmarker, List.suffix_refl _⟩
    · refine ⟨b, fun hb => hcr ?_, marker :: front, ?_⟩
      · rw [hb, List.concat_eq_append, List.getLast?_concat]
      · simp
  | tooLong _ hwindow => exact ⟨_, rfl, rfl, Nat.lt_add_of_pos_right Nat.two_pos⟩

/-- A line that ends without a carriage return shows the byte in its place.  An empty line has none
of its own, and then it is the marker, which is no carriage return. -/
theorem justified_line {marker : UInt8} (hmarker : marker ≠ cr) :
    Justified limits rounds (before ++ [marker]) (line limits.maxBlobLength) := by
  intro taken rest violation _ h
  obtain ⟨head, hhead, hshown⟩ := (run_line_eq_iff.1 h).shown hmarker
  obtain rfl := List.append_cancel_right hhead
  rw [List.append_assoc]
  exact hshown.behind before

/-- A length is refused together with the limit that it is beyond. -/
theorem justified_checkLength (length : Nat) :
    Justified limits rounds before (checkLength limits.maxBlobLength length) := by
  unfold checkLength
  split
  · rename_i hlength
    exact justified_refuse ⟨rfl, hlength⟩
  · exact justified_done ()

/-- Any bytes are a payload, so only the terminator behind them can be refused. -/
theorem justified_payload (length : Nat) :
    Justified limits rounds before (Decoder.payload length) :=
  (justified_take _).bind fun _ _ _ _ => justified_terminator.bind fun _ _ _ _ => justified_done _

/-- Fragments, behind any that were collected.  A negative length is refused behind its header,
so it is the header that shows it. -/
theorem justified_fragmentsFrom (left : Nat) (collected : Bytes) :
    Justified limits rounds before
      (fragmentsFrom limits.maxBlobLength rounds left collected) := by
  induction left generalizing before collected with
  | zero => exact justified_outOfRounds
  | succ left ih =>
    refine (justified_expect (.inr (.inr rfl))).bind fun _ mark _ hmark => ?_
    obtain rfl : mark = [fragmentMark] := List.append_cancel_right (run_expect_eq_ok.1 hmark)
    refine justified_header.bind fun header head _ hheader => ?_
    cases (header_exact rounds).language_taken hheader with
    | streamed => exact justified_refuse ⟨.inr rfl, List.suffix_append _ _⟩
    | number hn =>
      dsimp only
      split
      · rename_i hneg
        -- the sign was taken long ago, and the whole header shows it
        rw [← List.append_cons]
        exact justified_refuse (.inr ⟨rfl, head, _, hn, lt_zero_iff_toInt.1 hneg,
          List.suffix_append before _⟩)
      split
      · exact justified_done collected
      · refine (justified_checkLength _).bind fun _ _ _ _ => ?_
        exact (justified_payload _).bind fun fragment _ _ _ => ih _

/-- A blob is refused for its header, its length, its fragments or its end. -/
theorem justified_blob :
    Justified limits rounds before (blob limits.maxBlobLength rounds) := by
  refine justified_header.bind fun header _ _ _ => ?_
  cases header with
  | streamed => exact (justified_fragmentsFrom rounds []).bind fun _ _ _ _ => justified_done _
  | number n =>
    dsimp only
    split
    · exact justified_done none
    · refine (justified_checkLength _).bind fun _ _ _ _ => ?_
      exact (justified_payload _).bind fun _ _ _ _ => justified_done _

/-- A truth value is refused for a byte that is neither of the two. -/
theorem justified_boolean : Justified limits rounds before boolean := by
  refine justified_nextByte.bind fun b head _ hrun => ?_
  obtain rfl : head = [b] := List.append_cancel_right (run_nextByte_eq_ok.1 hrun)
  split
  · exact justified_terminator.bind fun _ _ _ _ => justified_done _
  rename_i htrue
  split
  · exact justified_terminator.bind fun _ _ _ _ => justified_done _
  rename_i hfalse
  exact justified_refuse ⟨List.suffix_append before [b], htrue, hfalse⟩

/-! ## Aggregates -/

section Elements

variable {element : Decoder Value} {perEntry : Nat}

/-- An element is refused for what is shown, behind whatever elements stand in front of it. -/
theorem justified_elementsFrom (helement : ∀ before, Justified limits rounds before element)
    (count : Nat) (read : List Value) :
    Justified limits rounds before (elementsFrom element count read) := by
  induction count generalizing before read with
  | zero => exact justified_done _
  | succ count ih => exact (helement before).bind fun value _ _ _ => ih (value :: read)

/-- So it is in a stream, whose end is an element as far as reading goes. -/
theorem justified_elementsToEnd (helement : ∀ before, Justified limits rounds before element)
    (left : Nat) (read : List Value) :
    Justified limits rounds before (elementsToEnd element left read) := by
  induction left generalizing before read with
  | zero => exact justified_outOfRounds
  | succ left ih =>
    refine (helement before).bind fun value _ _ _ => ?_
    split
    · exact justified_done _
    · exact ih (value :: read)

/-- A key without a value is possible where entries are pairs. -/
theorem justified_aggregate (helement : ∀ before, Justified limits rounds before element)
    (hperEntry : perEntry = 1 ∨ perEntry = 2) :
    Justified limits rounds before (aggregate perEntry rounds element) := by
  refine justified_header.bind fun header _ _ _ => ?_
  cases header with
  | number n =>
    dsimp only
    split
    · exact justified_done _
    · exact (justified_elementsFrom helement _ []).bind fun _ _ _ _ => justified_done _
  | streamed =>
    refine (justified_elementsToEnd helement rounds []).bind fun items _ _ _ => ?_
    split
    · exact justified_done _
    · rename_i hlength
      rcases hperEntry with rfl | rfl
      · exact absurd (Nat.mod_one _) hlength
      · exact justified_refuse (Nat.mod_two_ne_zero.1 hlength)

end Elements

/-! ## Units -/

variable {element? : Option (Thunk (Decoder Value))}

/-- A body is read right behind the marker of its kind.  An aggregate for which no level is left
is refused there and then, and the other kinds for what their readers refuse. -/
theorem justified_body
    (helements : ∀ element ∈ element?, ∀ before, Justified limits rounds before element.get)
    (kind : Kind) :
    Justified limits rounds (before ++ [kind.marker]) (body limits rounds element? kind) := by
  unfold body
  split
  · exact (justified_line (marker_ne_cr kind)).bind fun _ _ _ _ => justified_done _
  · refine justified_blob.bind fun bytes? _ _ _ => ?_
    cases bytes? with
    | none => exact justified_done _
    | some bytes => exact justified_done _
  · rename_i hform
    have hmarker : kind.marker = Kind.integer.marker := by rw [eq_integer_of_form hform]
    exact (justified_number hmarker).bind fun _ _ _ _ => justified_done _
  · exact justified_terminator.bind fun _ _ _ _ => justified_done _
  · exact justified_boolean
  · rename_i perEntry hform
    have haggregate : kind.isAggregate = true := isAggregate_iff.2 ⟨perEntry, hform⟩
    cases element? with
    | none => exact justified_refuse ⟨rfl, kind, haggregate, List.suffix_append before _⟩
    | some element => exact justified_aggregate (helements element rfl) (perEntry_of_form hform)

/-- A unit is refused for its marker or for a body, its own or that of an attributes unit. -/
theorem justified_unitBehind
    (helements : ∀ element ∈ element?, ∀ before, Justified limits rounds before element.get)
    (left : Nat) (pending : Option Value) :
    Justified limits rounds before (unitBehind limits rounds element? left pending) := by
  induction left generalizing before pending with
  | zero => exact justified_outOfRounds
  | succ left ih =>
    refine justified_nextByte.bind fun b head _ hrun => ?_
    obtain rfl : head = [b] := List.append_cancel_right (run_nextByte_eq_ok.1 hrun)
    split
    · rename_i hnone
      refine justified_refuse ⟨List.suffix_append before [b], ?_⟩
      -- every marker is found, so a byte that is not found is none
      rintro kind rfl
      rw [Kind.ofMarker?_marker] at hnone
      cases hnone
    · rename_i kind hkind
      obtain rfl := Kind.marker_of_ofMarker? hkind
      refine (justified_body helements kind).bind fun data _ _ _ => ?_
      split
      · exact ih _
      · exact justified_done _

/-- A unit is refused for what is shown, whatever was taken in front of it.  By induction on the
levels, as elements are units with a level less. -/
theorem justified_unit (limits : Limits) (rounds levels : Nat) (before : Bytes) :
    Justified limits rounds before (unit limits rounds levels) := by
  induction levels generalizing before with
  | zero => exact justified_unitBehind (fun _ h => absurd h (Option.not_mem_none _)) rounds none
  | succ levels ih =>
    refine justified_unitBehind (fun element helement => ?_) rounds none
    obtain rfl := Option.some.inj helement
    exact ih

end Decoder

/-- Refusals: **where decoding fails with a violation, the bytes that it has taken show what the
violation says,** at whatever depth it was found and behind whatever was accepted. -/
theorem decode_refusals {limits : Limits} {input rest : Bytes} {violation : Violation}
    (h : decode limits input = .error (.violation violation) rest) :
    ∃ taken, input = taken ++ rest ∧ violation.Shown limits taken := by
  obtain ⟨taken, htaken⟩ :=
    (Decoder.unit limits (input.length + 1) limits.maxDepth).exists_taken input
  have hrun : (Decoder.unit limits (input.length + 1) limits.maxDepth).run input = _ := h
  rw [hrun] at htaken
  obtain rfl : input = taken ++ rest := htaken
  exact ⟨taken, rfl, Decoder.justified_unit limits _ _ [] taken rest violation
    (Nat.lt_succ_self _) h⟩

/-- An attributes unit and a map of which the first key is in fragments.  The second fragment
has a negative length. -/
def overdrawn : Bytes :=
  ascii "|1\r\n+a\r\n:1\r\n%1\r\n$?\r\n;2\r\nhi\r\n;-03\r\n".toList

/-- The sign is named behind the line feed of the header that it stands in. -/
theorem decode_overdrawn :
    decode {} (overdrawn ++ ascii ['+']) =
        .error (.violation (.unexpectedNumberByte Decoder.minus)) (ascii ['+']) ∧
      ∃ head n, Number head n ∧ n < 0 ∧ Decoder.fragmentMark :: head <:+ overdrawn := by
  have hdecode : decode {} (overdrawn ++ ascii ['+']) =
      .error (.violation (.unexpectedNumberByte Decoder.minus)) (ascii ['+']) := rfl
  have hlast : ¬[Decoder.minus] <:+ overdrawn := by decide
  obtain ⟨taken, htaken, hshown⟩ := decode_refusals hdecode
  obtain rfl : overdrawn = taken := List.append_cancel_right htaken
  rcases hshown with ⟨hminus, -⟩ | ⟨-, hheader⟩
  · exact absurd hminus hlast
  · exact ⟨hdecode, hheader⟩

end RespCodec
