/-
# What an input gives is at the front of its bytes

A buffered input takes its bytes from deliveries, a list has them all at once.
Both are asked for the same things by a decoder: one byte, or a span.  A span may
end in the buffer, and then it ends there in the whole list
(`Bytes.takeSpan_append_of_le`).  Or it goes on behind the buffer, and so it does in
the list (`Bytes.takeSpan_append_of_lt`).

`Inbound.Answer` compares the two.  An input answers as the list of its bytes does,
with the same bytes left, unless a delivery makes the read fail.  This is shown
for a byte (`Inbound.takeByte_answer`) and, by induction on the deliveries, for a span
(`Inbound.spanFrom_answer`).
-/

import RespCodec.Source.Inbound

namespace RespCodec

/-! ## Spans over the ends of deliveries -/

namespace Span

/-- A span that ends in a part of an input ends there in the whole. -/
theorem extent_append_of_le {span : Span} {front : Bytes} (h : span.extent front ≤ front.length)
    (more : Bytes) : span.extent (front ++ more) = span.extent front := by
  cases span with
  | payload length => rfl
  | line limit =>
    have hle : front.findIdx (· == lf) ≤ front.length := List.findIdx_le_length
    simp only [extent, List.findIdx_append] at h ⊢
    split <;> omega

/-- A span that does not end in a part of an input goes on behind it. -/
theorem extent_append_of_lt {span : Span} {front : Bytes} (h : front.length < span.extent front)
    (more : Bytes) :
    span.extent (front ++ more) = front.length + (span.after front.length).extent more := by
  cases span with
  | payload length =>
    simp only [extent, after] at h ⊢
    omega
  | line limit =>
    have hle : front.findIdx (· == lf) ≤ front.length := List.findIdx_le_length
    simp only [extent, after, List.findIdx_append] at h ⊢
    split <;> omega

/-- A span that has been read in part is cut short in the same way as the whole of it. -/
@[simp] theorem cutShort_after (span : Span) (n : Nat) :
    (span.after n).cutShort = span.cutShort := by
  cases span <;> rfl

end Span

namespace Bytes

/-- A text that was read behind bytes, joined with them. -/
def behind {ε σ : Type} (front : Bytes) : EStateM.Result ε σ Bytes → EStateM.Result ε σ Bytes
  | .ok text s => .ok (front ++ text) s
  | .error e s => .error e s

/-- A span that ends in the front of a list leaves what is behind. -/
theorem takeSpan_append_of_le {span : Span} {front : Bytes}
    (h : span.extent front ≤ front.length) (more : Bytes) :
    takeSpan span (front ++ more) =
      .ok (front.take (span.extent front)) (front.drop (span.extent front) ++ more) := by
  have hextent := Span.extent_append_of_le h more
  have hle : span.extent (front ++ more) ≤ (front ++ more).length := by
    rw [hextent, List.length_append]
    omega
  rw [takeSpan_of_le hle, hextent, List.take_append_of_le_length h, List.drop_append_of_le_length h]

/-- A span that does not end in the front of a list takes all of it, and the rest of
the span from what is behind. -/
theorem takeSpan_append_of_lt {span : Span} {front : Bytes}
    (h : front.length < span.extent front) (more : Bytes) :
    takeSpan span (front ++ more) = behind front (takeSpan (span.after front.length) more) := by
  have hextent := Span.extent_append_of_lt h more
  rcases Nat.lt_or_ge more.length ((span.after front.length).extent more) with hlt | hge
  · have hlength : (front ++ more).length < span.extent (front ++ more) := by
      rw [hextent, List.length_append]
      omega
    rw [takeSpan_of_lt hlt, takeSpan_of_lt hlength, behind, Span.cutShort_after]
  · have hlength : span.extent (front ++ more) ≤ (front ++ more).length := by
      rw [hextent, List.length_append]
      omega
    rw [takeSpan_of_le hge, takeSpan_of_le hlength, behind, hextent, List.take_length_add_append,
      List.drop_length_add_append]

end Bytes

/-! ## Inputs beside the list of their bytes -/

/-- The delivery brings bytes, or only asks for the read to be made again. -/
def Delivery.IsSmooth : Delivery → Prop
  | chunk bytes => bytes ≠ []
  | fault f => f.isInterruption = true

instance : DecidablePred Delivery.IsSmooth
  | .chunk bytes => inferInstanceAs (Decidable (bytes ≠ []))
  | .fault f => inferInstanceAs (Decidable (f.isInterruption = true))

namespace Inbound

variable {α : Type}

/-- What a read of an input answers, beside the answer of the list of its bytes.
Either both succeed or both fail, in the same way and with the same bytes left,
or the input fails because of a delivery in its script. -/
inductive Answer (script : List Delivery) :
    EStateM.Result StreamError Inbound α → EStateM.Result StreamError Bytes α → Prop
  | ok {a : α} {left : Inbound} (h : left.script <:+ script) :
    Answer script (.ok a left) (.ok a left.bytes)
  | error {e : StreamError} {left : Inbound} (h : left.script <:+ script) :
    Answer script (.error e left) (.error e left.bytes)
  | broken {e : StreamError} {left : Inbound} {r : EStateM.Result StreamError Bytes α}
    {delivery : Delivery} (hmem : delivery ∈ script) (h : ¬delivery.IsSmooth) :
    Answer script (.error e left) r

/-- Deliveries in front of those that were read change nothing. -/
theorem Answer.of_suffix {front script : List Delivery} (hscript : front <:+ script)
    {r : EStateM.Result StreamError Inbound α} {r' : EStateM.Result StreamError Bytes α}
    (h : Answer front r r') : Answer script r r' := by
  cases h with
  | ok h => exact .ok (h.trans hscript)
  | error h => exact .error (h.trans hscript)
  | broken hmem h => exact .broken (hscript.mem hmem) h

/-- Neither do bytes in front of the text. -/
theorem Answer.behind {script : List Delivery} (front : Bytes)
    {r : EStateM.Result StreamError Inbound Bytes} {r' : EStateM.Result StreamError Bytes Bytes}
    (h : Answer script r r') : Answer script (Bytes.behind front r) (Bytes.behind front r') := by
  cases h with
  | ok h => exact .ok h
  | error h => exact .error h
  | broken hmem h => exact .broken hmem h

/-- A span that the buffer holds is taken out of it, and the script is left alone. -/
theorem spanFrom_of_le {script : List Delivery} {span : Span} {buffer : Bytes}
    (h : span.extent buffer ≤ buffer.length) :
    spanFrom script span buffer =
      .ok (buffer.take (span.extent buffer)) ⟨buffer.drop (span.extent buffer), script⟩ := by
  unfold spanFrom
  simp only [List.length_take, Nat.min_eq_left h, if_true]

/-- A span that does not end in the buffer goes on with the next delivery. -/
theorem spanFrom_of_lt {script : List Delivery} {span : Span} {buffer : Bytes}
    (h : buffer.length < span.extent buffer) :
    spanFrom script span buffer = match script with
      | [] => .error span.cutShort ⟨[], []⟩
      | .chunk [] :: script => .error span.cutShort ⟨[], script⟩
      | .chunk (b :: bytes) :: script =>
        Bytes.behind buffer (spanFrom script (span.after buffer.length) (b :: bytes))
      | .fault f :: script =>
        if f.isInterruption then Bytes.behind buffer (spanFrom script (span.after buffer.length) [])
        else .error (.fault f) ⟨[], script⟩ := by
  have htake : buffer.take (span.extent buffer) = buffer := List.take_of_length_le (by omega)
  have hne : ¬buffer.length = span.extent buffer := by omega
  conv => lhs; unfold spanFrom
  simp only [htake, if_neg hne]
  rcases script with _ | ⟨⟨_ | ⟨b, bytes⟩⟩ | f, script⟩
  · rfl
  · rfl
  · dsimp only
    cases spanFrom script (span.after buffer.length) (b :: bytes) <;> rfl
  · dsimp only
    cases spanFrom script (span.after buffer.length) [] <;> rfl

/-- A span of an input is the span of its bytes.  By induction on the script: a span that does
not end in the buffer goes on in the next delivery, for what is left of it, and its text has the
buffer in front. -/
theorem spanFrom_answer (script : List Delivery) (span : Span) (buffer : Bytes) :
    Answer script (spanFrom script span buffer)
      (Bytes.takeSpan span (buffer ++ script.flatMap (·.bytes))) := by
  induction script generalizing span buffer with
  | nil =>
    rw [List.flatMap_nil, List.append_nil]
    rcases Nat.lt_or_ge buffer.length (span.extent buffer) with hlt | hge
    · rw [spanFrom_of_lt hlt, Bytes.takeSpan_of_lt hlt]
      exact .error List.suffix_rfl
    · rw [spanFrom_of_le hge, Bytes.takeSpan_of_le hge]
      have hbytes : (Inbound.mk (buffer.drop (span.extent buffer)) []).bytes =
          buffer.drop (span.extent buffer) := List.append_nil _
      conv => rhs; rw [← hbytes]
      exact .ok List.suffix_rfl
  | cons delivery script ih =>
    rcases Nat.lt_or_ge buffer.length (span.extent buffer) with hlt | hge
    · rw [spanFrom_of_lt hlt, Bytes.takeSpan_append_of_lt hlt]
      -- an empty delivery breaks off the span, an interruption does not
      match delivery with
      | .chunk [] => exact .broken List.mem_cons_self fun h => h rfl
      | .chunk (b :: bytes) =>
        exact ((ih _ _).behind buffer).of_suffix (List.suffix_cons ..)
      | .fault f =>
        by_cases hf : f.isInterruption = true
        · simp only [hf, if_true]
          exact ((ih _ _).behind buffer).of_suffix (List.suffix_cons ..)
        · simp only [hf]
          exact .broken List.mem_cons_self hf
    · rw [spanFrom_of_le hge, Bytes.takeSpan_append_of_le hge]
      exact .ok List.suffix_rfl

/-- In front of an empty buffer an interruption is passed over: the byte is looked for behind it. -/
theorem takeByte_interruption {f : Fault} (hf : f.isInterruption = true)
    (script : List Delivery) :
    takeByte ⟨[], .fault f :: script⟩ = takeByte ⟨[], script⟩ := by
  simp [takeByte, fillPatiently, awaitDelivery, hf, bind, EStateM.bind]

/-- Any other fault ends the attempt, and is used up by it. -/
theorem takeByte_fault {f : Fault} (hf : ¬f.isInterruption = true) (script : List Delivery) :
    takeByte ⟨[], .fault f :: script⟩ = .error (.fault f) ⟨[], script⟩ := by
  simp [takeByte, fillPatiently, awaitDelivery, hf, bind, EStateM.bind]

/-- A byte of an input is the first of its bytes.  By induction on the script, as behind an
interruption the question is the same. -/
theorem takeByte_answer (inbound : Inbound) :
    Answer inbound.script inbound.takeByte (Bytes.takeByte inbound.bytes) := by
  obtain ⟨buffer, script⟩ := inbound
  cases buffer with
  | cons b rest => exact .ok List.suffix_rfl
  | nil =>
    induction script with
    | nil => exact .error List.suffix_rfl
    | cons delivery script ih =>
      match delivery, script with
      | .chunk (b :: bytes), script => exact .ok (List.suffix_cons ..)
      -- a pause is endured once
      | .chunk [], .chunk (b :: bytes) :: script =>
        exact .ok ((List.suffix_cons ..).trans (List.suffix_cons ..))
      | .chunk [], [] => exact .broken List.mem_cons_self fun h => h rfl
      | .chunk [], .chunk [] :: _ => exact .broken List.mem_cons_self fun h => h rfl
      | .chunk [], .fault f :: _ => exact .broken List.mem_cons_self fun h => h rfl
      | .fault f, script =>
        by_cases hf : f.isInterruption = true
        · rw [takeByte_interruption hf]
          exact ih.of_suffix (List.suffix_cons ..)
        · rw [takeByte_fault hf]
          exact .broken List.mem_cons_self hf

end Inbound
end RespCodec
