/-
# No byte is lost behind a failure

A failed write leaves bytes where they were: in the buffer, or broken off on their way past
it.  The output, which is what was written with what is held back behind it, therefore
grows by one piece with each call, whatever fails (`Connection.exists_contributions_take`),
and what a piece can be is said by `Connection.Contributes`.

Giving the connection up adds nothing.  It moves bytes from the front of the buffer to the
sink, up to a failure and then once more (`BufferedSink.Drains`), so what is written in the
end is a front of the output.
-/

import RespCodec.Proofs.Framing

namespace RespCodec

namespace BufferedSink

/-- Bytes went from the front of the buffer to the sink, and nothing else did. -/
def Drains (buffered left : BufferedSink) : Prop :=
  ∃ moved, buffered.buffer = moved ++ left.buffer ∧
    left.sink.written = buffered.sink.written ++ moved

/-- What is drained in two steps is drained, as each of them moves bytes from the front of the
buffer to the end of what was written. -/
theorem Drains.trans {buffered middle left : BufferedSink} (h : buffered.Drains middle)
    (h' : middle.Drains left) : buffered.Drains left := by
  obtain ⟨moved, hbuffer, hwritten⟩ := h
  obtain ⟨more, hbuffer', hwritten'⟩ := h'
  refine ⟨moved ++ more, ?_, ?_⟩
  · rw [hbuffer, hbuffer', List.append_assoc]
  · rw [hwritten', hwritten, List.append_assoc]

/-- The output stays as it is. -/
theorem Drains.output_eq {buffered left : BufferedSink} (h : buffered.Drains left) :
    left.output = buffered.output := by
  obtain ⟨moved, hbuffer, hwritten⟩ := h
  rw [output, output, hbuffer, hwritten, List.append_assoc]

/-- A drain moves all bytes of the buffer, or fails and moves some. -/
theorem drain_drains (buffered : BufferedSink) :
    (∃ left, drain buffered = .ok () left ∧ buffered.Drains left ∧ left.buffer = []) ∨
      ∃ e left, drain buffered = .error e left ∧ buffered.Drains left := by
  unfold drain
  rcases buffered.sink.offer_cases .drainRefused buffered.buffer with ⟨sink, hoffer, hwritten⟩ |
    ⟨e, front, unsent, sink, hoffer, -, hbuffer, hwritten⟩
  · rw [hoffer]
    exact .inl ⟨_, rfl, ⟨buffered.buffer, (List.append_nil _).symm, hwritten⟩, rfl⟩
  · rw [hoffer]
    exact .inr ⟨e, _, rfl, front, hbuffer, hwritten⟩

/-- So does closing, which drains once more where a drain fails. -/
theorem close_drains (buffered : BufferedSink) :
    (∃ left, close buffered = .ok () left ∧ buffered.Drains left ∧ left.buffer = []) ∨
      ∃ e left, close buffered = .error e left ∧ buffered.Drains left := by
  unfold close
  rcases drain_drains buffered with ⟨left, hdrain, hdrains, hbuffer⟩ | ⟨e, left, hdrain, hdrains⟩
  · rw [hdrain]
    exact .inl ⟨left, rfl, hdrains, hbuffer⟩
  · rw [hdrain]
    dsimp only
    rcases drain_drains left with ⟨last, hdrain', hdrains', -⟩ | ⟨e', last, hdrain', hdrains'⟩
    · rw [hdrain']
      exact .inr ⟨e, last, rfl, hdrains.trans hdrains'⟩
    · rw [hdrain']
      exact .inr ⟨e, last, rfl, hdrains.trans hdrains'⟩

end BufferedSink

namespace Connection

variable {connection : Connection}

/-- Giving a connection up drains its buffer, and all of it if that succeeds. -/
theorem close_cases (connection : Connection) :
    (∃ left, close connection = .ok () left ∧
        connection.outbound.Drains left.outbound.toBufferedSink ∧ left.outbound.buffer = []) ∨
      ∃ e left, close connection = .error (.stream e) left ∧
        connection.outbound.Drains left.outbound.toBufferedSink := by
  simp only [close, onOutbound]
  rcases BufferedSink.close_drains connection.outbound.toBufferedSink with
    ⟨left, hclose, hdrains, hbuffer⟩ | ⟨e, left, hclose, hdrains⟩
  · rw [hclose]
    exact .inl ⟨_, rfl, hdrains, hbuffer⟩
  · rw [hclose]
    exact .inr ⟨e, _, rfl, hdrains⟩

/-- However many calls fail, one that succeeds holds nothing back.  It has flushed, with its own
bytes whatever those before it left in the buffer. -/
theorem buffer_of_mem_log {capacity : Nat} (hroom : 0 < capacity) {calls : List Call}
    (hsends : ∀ call ∈ calls, call.IsSend) (hready : connection.Ready capacity) {entry : Entry}
    (hentry : entry ∈ log calls connection) {value? : Option Value} {left : Connection}
    (hok : entry.2 = .ok value? left) : left.outbound.buffer = [] := by
  induction calls generalizing connection with
  | nil => exact absurd hentry List.not_mem_nil
  | cons call calls ih =>
    have hsend := hsends call List.mem_cons_self
    rw [log_cons] at hentry
    rcases List.mem_cons.1 hentry with rfl | hentry
    · exact (sent_of_perform hroom hready hsend hok).2
    · obtain ⟨-, -, -, hnext⟩ := perform_contributes hroom hready hsend
      exact ih (fun other hother => hsends other (List.mem_cons_of_mem _ hother)) hnext hentry

/-- Conservation: **behind each call, what was written and what is held back are one piece
for each call so far, in order.**  A call that succeeded has added all of its bytes and
holds nothing back; one that failed has added all of them, or none, or, if they are as long
as the buffer at least, a part from their front.  Giving the connection up only moves bytes
from the front of the buffer to the sink, and all of them if it succeeds. -/
theorem output_conserved {start : Connection} (hhealthy : start.poisoned = false)
    (hroom : 1 ≤ start.outbound.capacity) {calls : List Call}
    (hsends : ∀ call ∈ calls, call.IsSend) :
    ∃ added, List.Forall₂ (Contributes start.outbound.capacity) (log calls start) added ∧
      (∀ n, (afterAll (calls.take n) start).outbound.output =
        start.outbound.output ++ (added.take n).flatten) ∧
      (∀ entry ∈ log calls start, ∀ value? left, entry.2 = .ok value? left →
        left.outbound.buffer = []) ∧
      ∀ closed, stateAfter (close (afterAll calls start)) = closed →
        (afterAll calls start).outbound.Drains closed.outbound.toBufferedSink ∧
        closed.outbound.sink.written <+: start.outbound.output ++ added.flatten ∧
        (close (afterAll calls start) = .ok () closed →
          closed.outbound.sink.written = start.outbound.output ++ added.flatten) := by
  have hready : start.Ready start.outbound.capacity := ⟨hhealthy, rfl⟩
  obtain ⟨added, hadded, htake⟩ := exists_contributions_take hroom hsends hready
  -- all calls are the first so many of them
  have houtput : (afterAll calls start).outbound.output =
      start.outbound.output ++ added.flatten := by
    have hall := (htake calls.length).1
    rwa [List.take_length, ← length_of_contributes hadded, List.take_length] at hall
  refine ⟨added, hadded, fun n => (htake n).1, ?_, ?_⟩
  · intro entry hentry value? left
    exact buffer_of_mem_log hroom hsends hready hentry
  · rintro closed rfl
    rw [← houtput]
    -- closing may fail and drain a second time, but bytes only move from buffer to sink
    rcases close_cases (afterAll calls start) with ⟨left, hclose, hdrains, hbuffer⟩ |
      ⟨e, left, hclose, hdrains⟩
    · rw [hclose]
      have hwritten : left.outbound.sink.written = (afterAll calls start).outbound.output := by
        rw [← hdrains.output_eq, BufferedSink.output, hbuffer, List.append_nil]
      exact ⟨hdrains, hwritten ▸ List.prefix_rfl, fun _ => hwritten⟩
    · rw [hclose, ← hdrains.output_eq]
      refine ⟨hdrains, List.prefix_append _ _, fun hok => ?_⟩
      cases hok

/-- A peer that takes a command, and then no write without trouble. -/
def faltering : Endpoint where
  sink := { acceptances := [.accept 100, .fault ⟨.other "TimedOut", "late"⟩, .accept 4,
    .fault ⟨.other "TimedOut", "late"⟩, .accept 100, .accept 3, .accept 0,
    .fault ⟨.other "TimedOut", "late"⟩, .accept 2, .fault ⟨.other "TimedOut", "late"⟩, .accept 5,
    .fault ⟨.other "TimedOut", "late"⟩] }

/-- Of five calls one succeeds, one is held back and goes out later, one adds nothing, one
is broken off, and of the last only seven bytes are out in the end. -/
theorem output_faltering :
    ∃ calls : List Call, calls = [.send ping, .send ping, .sendPipeline [ping, ping],
        .sendPipeline [ping, ping], .send ping] ∧
      (log calls (ofEndpoint { writeBuffer := 16 } faltering)).map (·.succeeded) =
        [true, false, false, false, false] ∧
      ∃ added closed,
        stateAfter (close (afterAll calls (ofEndpoint { writeBuffer := 16 } faltering))) = closed ∧
        List.Forall₂ (Contributes 16) (log calls (ofEndpoint { writeBuffer := 16 } faltering))
          added ∧
        closed.outbound.sink.written =
          ping.encode ++ ping.encode ++ ping.encode.take 3 ++ ping.encode.take 7 ∧
        closed.outbound.sink.written <+: added.flatten := by
  have hsends : ∀ call ∈ [Call.send ping, .send ping, .sendPipeline [ping, ping],
      .sendPipeline [ping, ping], .send ping], call.IsSend := by decide
  have hroom : 1 ≤ (ofEndpoint { writeBuffer := 16 } faltering).outbound.capacity := by decide
  obtain ⟨added, hadded, -, -, hclose⟩ := output_conserved rfl hroom hsends
  obtain ⟨-, hwritten, -⟩ := hclose _ rfl
  exact ⟨_, rfl, rfl, added, _, rfl, hadded, rfl, hwritten⟩

end Connection
end RespCodec
