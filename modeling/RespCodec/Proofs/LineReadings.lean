/-
# What a line reader makes of any bytes

A line reader looks at no more than a window, which is two bytes longer than a line may be:
it has room for the terminator of the longest line.  The first line feed in the window
decides, and if there is none, whether the window is full:

| in the window | come to |
| --- | --- |
| text without a line feed, `CR LF` | the text |
| a line feed, the first one, without a carriage return before it | a missing terminator |
| no line feed, and the window is full | a line that is too long |
| no line feed, and the bytes end before the window does | the end of the stream |

`LineReading` has one rule for each.  Any bytes have a reading (`exists_lineReading`), and a
line reader follows every rule (`LineReading.run_eq`), so it comes to a result just where the
rules say so (`run_line_eq_iff`).  It does the same where the bytes arrive over time.
-/

import RespCodec.Proofs.Arrival
import RespCodec.Proofs.Fields

namespace RespCodec
namespace Decoder

variable {limit : Nat} {input rest : Bytes}

/-- What comes of reading a line of at most `limit` bytes, and the bytes left behind it. -/
inductive LineReading (limit : Nat) : Bytes → EStateM.Result Error Bytes Bytes → Prop
  /-- The text may hold carriage returns, also as its last byte. -/
  | text {text rest : Bytes} (hlf : lf ∉ text) (hlimit : text.length ≤ limit) :
    LineReading limit (text ++ crlf ++ rest) (.ok text rest)
  | missingCrlf {front rest : Bytes} (hlf : lf ∉ front) (hwindow : front.length < limit + 2)
    (hcr : front.getLast? ≠ some cr) :
    LineReading limit (front ++ lf :: rest) (.error (.violation .missingCrlf) rest)
  | tooLong {window rest : Bytes} (hlf : lf ∉ window) (hwindow : window.length = limit + 2) :
    LineReading limit (window ++ rest)
      (.error (.violation (.blobTooLarge (limit + 2) limit)) rest)
  | cutShort {input : Bytes} (hlf : lf ∉ input) (hwindow : input.length < limit + 2) :
    LineReading limit input (.error (.stream .endOfStream) [])

/-! ## Every input has a reading -/

/-- The first line feed settles the reading, if it is in the window. -/
theorem exists_lineReading_of_lf {front : Bytes} (hlf : lf ∉ front)
    (hwindow : front.length < limit + 2) (rest : Bytes) :
    ∃ result, LineReading limit (front ++ lf :: rest) result := by
  by_cases hcr : front.getLast? = some cr
  · obtain ⟨text, rfl⟩ := List.getLast?_eq_some_iff.1 hcr
    have hcrlf : text ++ [cr] ++ lf :: rest = text ++ crlf ++ rest := by simp [crlf]
    rw [List.length_append, List.length_singleton] at hwindow
    rw [hcrlf]
    exact ⟨_, .text (fun hmem => hlf (List.mem_append_left _ hmem)) (by omega)⟩
  · exact ⟨_, .missingCrlf hlf hwindow hcr⟩

/-- Every input is read as a line in one of the four ways, by where its first line feed is and how
long it is. -/
theorem exists_lineReading (limit : Nat) (input : Bytes) :
    ∃ result, LineReading limit input result := by
  -- a line feed in the window settles the line, otherwise its length does
  by_cases hmem : lf ∈ input.take (limit + 2)
  · obtain ⟨front, back, hsplit, hlf⟩ := List.eq_append_cons_of_mem hmem
    have hwindow : front.length < limit + 2 := by
      have hlength := congrArg List.length hsplit
      rw [List.length_take, List.length_append, List.length_cons] at hlength
      omega
    have hinput : input = front ++ lf :: (back ++ input.drop (limit + 2)) := by
      rw [← List.cons_append, ← List.append_assoc, ← hsplit, List.take_append_drop]
    rw [hinput]
    exact exists_lineReading_of_lf hlf hwindow _
  · rcases Nat.lt_or_ge input.length (limit + 2) with hshort | hfull
    · rw [List.take_of_length_le (Nat.le_of_lt hshort)] at hmem
      exact ⟨_, .cutShort hmem hshort⟩
    · have htooLong : LineReading limit (input.take (limit + 2) ++ input.drop (limit + 2)) _ :=
        .tooLong hmem (List.length_take_of_le hfull)
      rw [List.take_append_drop] at htooLong
      exact ⟨_, htooLong⟩

/-! ## The window of a line -/

/-- A window is taken through its first line feed. -/
theorem run_take_line_of_lf {window : Nat} {front : Bytes} (hlf : lf ∉ front)
    (h : front.length < window) (rest : Bytes) :
    (take (.line window)).run (front ++ lf :: rest) = .ok (front ++ [lf]) rest := by
  have hfirst : (front ++ lf :: rest).findIdx (· == lf) = front.length :=
    findIdx_lf_append hlf (lf :: rest)
  have hextent : (front ++ [lf]).length = (Span.line window).extent (front ++ lf :: rest) := by
    rw [Span.extent, hfirst, List.length_append, List.length_singleton]
    omega
  exact run_take_eq_ok.2 ⟨hextent, List.append_cons front lf rest⟩

/-- A window without a line feed is taken whole. -/
theorem run_take_line_of_not_mem {window : Bytes} (hlf : lf ∉ window) (rest : Bytes) :
    (take (.line window.length)).run (window ++ rest) = .ok window rest := by
  have hextent : window.length = (Span.line window.length).extent (window ++ rest) := by
    rw [Span.extent, findIdx_lf_append hlf]
    omega
  exact run_take_eq_ok.2 ⟨hextent, rfl⟩

/-- Bytes that end before the window and have no line feed are used up. -/
theorem run_take_line_of_lt {window : Nat} (hlf : lf ∉ input) (h : input.length < window) :
    (take (.line window)).run input = .error (.stream .endOfStream) [] := by
  have hfirst : input.findIdx (· == lf) = input.length := by
    have happend := findIdx_lf_append hlf []
    rwa [List.append_nil] at happend
  have hextent : input.length < (Span.line window).extent input := by
    rw [Span.extent, hfirst]
    omega
  exact run_span_of_lt hextent done

/-- A line reader looks at the last two bytes of what it has taken. -/
theorem run_line (limit : Nat) (input : Bytes) :
    (line limit).run input =
      match (take (.line (limit + 2))).run input with
      | .ok taken rest =>
        if taken.getLast? ≠ some lf then .error (.violation (.blobTooLarge taken.length limit)) rest
        else if taken.dropLast.getLast? ≠ some cr then .error (.violation .missingCrlf) rest
        else .ok taken.dropLast.dropLast rest
      | .error e rest => .error e rest := by
  simp only [line, bind_eq, run_bind]
  cases (take (.line (limit + 2))).run input with
  | error e rest => rfl
  | ok taken rest =>
    dsimp only
    split
    · rfl
    split
    · rfl
    · rfl

/-- A line reader gives the reading of its input.  One case for each way, by what the window
takes of the input. -/
theorem LineReading.run_eq {result : EStateM.Result Error Bytes Bytes}
    (h : LineReading limit input result) : (line limit).run input = result := by
  cases h with
  | text hlf hlimit => exact run_line_eq_ok.2 ⟨hlf, hlimit, List.append_assoc ..⟩
  | missingCrlf hlf hwindow hcr =>
    rw [run_line, run_take_line_of_lf hlf hwindow]
    simp [hcr]
  | tooLong hlf hwindow =>
    have hlast : ∀ front : Bytes, lf ∉ front → front.getLast? ≠ some lf :=
      fun front hfront hlast => hfront (List.mem_of_getLast? hlast)
    rw [run_line, ← hwindow, run_take_line_of_not_mem hlf]
    simp [hlast _ hlf]
  | cutShort hlf hwindow => rw [run_line, run_take_line_of_lt hlf hwindow]

/-- A line reader comes to the one reading that its input has.  There is one, and the reader
gives it, so there is no other. -/
theorem run_line_eq_iff {result : EStateM.Result Error Bytes Bytes} :
    (line limit).run input = result ↔ LineReading limit input result := by
  constructor
  · rintro rfl
    obtain ⟨result, hreading⟩ := exists_lineReading limit input
    rwa [hreading.run_eq]
  · exact LineReading.run_eq

/-- No byte is taken beyond the first line feed, and none beyond the window. -/
theorem LineReading.exists_taken {result : EStateM.Result Error Bytes Bytes}
    (h : LineReading limit input result) :
    ∃ taken, input = taken ++ stateAfter result ∧ taken.length ≤ limit + 2 ∧
      lf ∉ taken.dropLast := by
  have hdropLast {window : Bytes} (hlf : lf ∉ window) : lf ∉ window.dropLast :=
    fun hmem => hlf ((List.dropLast_sublist window).subset hmem)
  cases h with
  | text hlf hlimit =>
    rename_i text rest
    have hcr : lf ∉ text ++ [cr] := by
      rw [List.mem_append, List.mem_singleton]
      exact not_or.2 ⟨hlf, by decide⟩
    refine ⟨text ++ crlf, rfl, ?_, ?_⟩
    · rw [List.length_append]
      exact Nat.add_le_add_right hlimit 2
    · have htext : text ++ crlf = text ++ [cr] ++ [lf] := by simp [crlf]
      rwa [htext, List.dropLast_concat]
  | missingCrlf hlf hwindow _ =>
    rename_i front rest _
    refine ⟨front ++ [lf], List.append_cons front lf rest, ?_, ?_⟩
    · rw [List.length_append, List.length_singleton]
      omega
    · rwa [List.dropLast_concat]
  | tooLong hlf hwindow => exact ⟨_, rfl, Nat.le_of_eq hwindow, hdropLast hlf⟩
  | cutShort hlf hwindow =>
    exact ⟨input, (List.append_nil input).symm, Nat.le_of_lt hwindow, hdropLast hlf⟩

/-- Lines: **a line reader comes to the one reading that its input has, at the limit as well
as below it,** and takes no byte beyond the first line feed and none beyond the window.  It
does the same, and leaves the same bytes, where these come in chunks with interruptions
between them, through a buffer of any size. -/
theorem run_line_windowed (limit : Nat) (input : Bytes) :
    (∀ result, (line limit).run input = result ↔ LineReading limit input result) ∧
      (∃ taken, input = taken ++ stateAfter ((line limit).run input) ∧
        taken.length ≤ limit + 2 ∧ lf ∉ taken.dropLast) ∧
      ∀ (capacity : Nat) (script : List Delivery), 1 ≤ capacity →
        (∀ delivery ∈ script, delivery.IsSmooth) → script.flatMap (·.bytes) = input →
        outcome ((line limit).run (Inbound.ofScript capacity script)) =
            outcome ((line limit).run input) ∧
          (stateAfter ((line limit).run (Inbound.ofScript capacity script))).bytes =
            stateAfter ((line limit).run input) := by
  refine ⟨fun result => run_line_eq_iff, (run_line_eq_iff.1 rfl).exists_taken, ?_⟩
  intro capacity script hcapacity hsmooth hbytes
  have hbrings := Inbound.brings_ofScript hcapacity hsmooth
  rw [hbytes] at hbrings
  -- sources that bring the same bytes cannot be told apart by a reader
  have halike := (line limit).run_alike Inbound.brings_indistinguishable hbrings
  exact ⟨halike.outcome_eq, halike.stateAfter.bytes_eq⟩

/-- A line of two bytes, of which the last is a carriage return, and a byte behind it.  The
chunks are cut before the text, inside it and inside the terminator. -/
def brimming : List Delivery :=
  [.fault ⟨.interrupted, "again"⟩, .chunk (ascii ['a']), .fault ⟨.interrupted, "again"⟩,
    .chunk [cr, cr], .chunk (lf :: ascii ['+'])]

/-- Where two bytes are allowed the line is read, and where one is, the line feed is already
outside the window. -/
theorem run_line_brimming :
    brimming.flatMap (·.bytes) = ascii "a\r\r\n+".toList ∧
      (line 2).run (ascii "a\r\r\n+".toList) = .ok (ascii "a\r".toList) (ascii ['+']) ∧
      outcome ((line 2).run (Inbound.ofScript 1 brimming)) = .ok (ascii "a\r".toList) ∧
      (stateAfter ((line 2).run (Inbound.ofScript 1 brimming))).bytes = ascii ['+'] ∧
      (line 1).run (ascii "a\r\r\n+".toList) =
        .error (.violation (.blobTooLarge 3 1)) (ascii "\n+".toList) := by
  have hsmooth : ∀ delivery ∈ brimming, delivery.IsSmooth := by decide
  have htext : LineReading 2 (ascii "a\r".toList ++ crlf ++ ascii ['+']) _ :=
    .text (by decide) (by decide)
  have htooLong : LineReading 1 (ascii "a\r\r".toList ++ ascii "\n+".toList) _ :=
    .tooLong (by decide) (by decide)
  obtain ⟨hrun, -, harrival⟩ := run_line_windowed 2 (ascii "a\r\r\n+".toList)
  have hline := (hrun _).2 htext
  obtain ⟨houtcome, hleft⟩ := harrival 1 brimming (by decide) hsmooth rfl
  rw [hline] at houtcome hleft
  exact ⟨rfl, hline, houtcome, hleft, ((run_line_windowed 1 _).1 _).2 htooLong⟩

end Decoder
end RespCodec
