/-
# What goes out

Bytes that are sent are written or held back, and what is held back is written before
anything else.  So what matters of a buffered sink is `BufferedSink.output`, the bytes
written with those held back behind them.

A call that sends adds its bytes to the output, and if it succeeds nothing is held back.
One that fails may have added all of them or none.  Only bytes that do not fit in the
buffer can be broken off inside: they are written past it, and what the sink does not
take then is gone (`BufferedSink.Addition`).  A drain that fails keeps what is left of
the buffer, so it adds nothing and loses nothing.

Each step is said as the two ways in which it can end, and `Connection.transmit_cases` says
so of a whole call.
-/

import RespCodec.Proofs.Session

namespace RespCodec

namespace Sink

/-- What was accepted is the front of what was offered, and the rest is unsent.  By induction on
the offer, each answer taking some of what is left of the bytes. -/
theorem exists_front_offerFrom (refusal : StreamError) (script : List Acceptance) (bytes : Bytes)
    (sink : Sink) :
    ∃ front, bytes = front ++ (offerFrom refusal script bytes sink).unsent ∧
      (offerFrom refusal script bytes sink).sink.written = sink.written ++ front := by
  fun_induction offerFrom refusal script bytes sink with
  | case1 | case3 | case6 => exact ⟨[], rfl, (List.append_nil _).symm⟩
  | case2 b bytes sink => exact ⟨b :: bytes, (List.append_nil _).symm, rfl⟩
  | case4 most script b bytes sink _ ih =>
    obtain ⟨front, hfront, hwritten⟩ := ih
    refine ⟨(b :: bytes).take most ++ front, ?_, ?_⟩
    · rw [List.append_assoc, ← hfront, List.take_append_drop]
    · rw [hwritten, List.append_assoc]
  | case5 f script b bytes sink _ ih => exact ih

/-- A write that fails has bytes left to write, as it stops when there are none. -/
theorem unsent_ne_nil_offerFrom {refusal e : StreamError} {script : List Acceptance}
    {bytes : Bytes} {sink : Sink} (h : (offerFrom refusal script bytes sink).failure = some e) :
    (offerFrom refusal script bytes sink).unsent ≠ [] := by
  fun_induction offerFrom refusal script bytes sink with
  | case1 | case2 => cases h
  | case3 | case6 => exact List.cons_ne_nil _ _
  | case4 most script b bytes sink _ ih => exact ih h
  | case5 f script b bytes sink _ ih => exact ih h

/-- An offer ends with everything accepted, or with a failure and something unsent. -/
theorem offer_cases (refusal : StreamError) (bytes : Bytes) (sink : Sink) :
    (∃ left, sink.offer refusal bytes = ⟨[], none, left⟩ ∧ left.written = sink.written ++ bytes) ∨
      ∃ e front unsent left, sink.offer refusal bytes = ⟨unsent, some e, left⟩ ∧ unsent ≠ [] ∧
        bytes = front ++ unsent ∧ left.written = sink.written ++ front := by
  obtain ⟨front, hbytes, hwritten⟩ := exists_front_offerFrom refusal sink.acceptances bytes sink
  have hdone := @unsent_offerFrom refusal sink.acceptances bytes sink
  have hfailed := fun e => @unsent_ne_nil_offerFrom refusal e sink.acceptances bytes sink
  unfold offer
  generalize offerFrom refusal sink.acceptances bytes sink = result at *
  obtain ⟨unsent, failure, left⟩ := result
  cases failure with
  | none =>
    obtain rfl : unsent = [] := hdone rfl
    rw [List.append_nil] at hbytes
    subst hbytes
    exact .inl ⟨left, rfl, hwritten⟩
  | some e => exact .inr ⟨e, front, unsent, left, rfl, hfailed e rfl, hbytes, hwritten⟩

end Sink

namespace BufferedSink

/-- All bytes that were written, and those held back to be written next. -/
def output (buffered : BufferedSink) : Bytes := buffered.sink.written ++ buffered.buffer

/-- What a call that fails may have added to the output. -/
inductive Addition (capacity : Nat) (bytes : Bytes) : Bytes → Prop
  | all : Addition capacity bytes bytes
  | nothing : Addition capacity bytes []
  | brokenOff {front unsent : Bytes} (hcapacity : capacity ≤ bytes.length)
    (hbytes : bytes = front ++ unsent) (hunsent : unsent ≠ []) : Addition capacity bytes front

/-- A drain that succeeds holds nothing back, and one that fails keeps the rest. -/
theorem drain_cases (buffered : BufferedSink) :
    (∃ sink, drain buffered = .ok () { buffered with buffer := [], sink } ∧
        sink.written = buffered.output) ∨
      ∃ e unsent sink, drain buffered = .error e { buffered with buffer := unsent, sink } ∧
        sink.written ++ unsent = buffered.output := by
  unfold drain
  rcases buffered.sink.offer_cases .drainRefused buffered.buffer with ⟨sink, hoffer, hwritten⟩ |
    ⟨e, front, unsent, sink, hoffer, -, hbuffer, hwritten⟩
  · rw [hoffer]
    exact .inl ⟨sink, rfl, hwritten⟩
  · rw [hoffer]
    refine .inr ⟨e, unsent, sink, rfl, ?_⟩
    rw [hwritten, output, hbuffer, List.append_assoc]

/-- Write bytes of which it is known that they need no drain any more. -/
def writeDrained (bytes : Bytes) : EStateM StreamError BufferedSink Unit := fun buffered =>
  if buffered.capacity ≤ bytes.length then onSink (Sink.writeAll bytes) buffered
  else hold bytes buffered

/-- Bytes that fit with room to spare are held back, others are written, and before
that the buffer is drained unless they just fill it. -/
theorem writeAll_eq (bytes : Bytes) (buffered : BufferedSink) :
    writeAll bytes buffered =
      if bytes.length < buffered.spare then hold bytes buffered
      else if buffered.spare < bytes.length then
        match drain buffered with
        | .ok _ drained => writeDrained bytes drained
        | .error e left => .error e left
      else writeDrained bytes buffered := by
  -- the capacity is read behind the drain, and `writeDrained` is all that comes after it
  have hstep : writeAll bytes buffered =
      (if bytes.length < buffered.spare then hold bytes
        else do
          if buffered.spare < bytes.length then drain
          if (← get).capacity ≤ bytes.length then onSink (Sink.writeAll bytes)
          else hold bytes : EStateM StreamError BufferedSink Unit) buffered := rfl
  rw [hstep]
  split
  · rfl
  split
  · simp only [bind, EStateM.bind]
    cases drain buffered with
    | error e left => rfl
    | ok _ drained =>
      dsimp only [get, getThe, MonadStateOf.get, EStateM.get, writeDrained]
      split <;> rfl
  · dsimp only [bind, EStateM.bind, pure, EStateM.pure, get, getThe, MonadStateOf.get, EStateM.get,
      writeDrained]
    split <;> rfl

/-- Bytes that are written past the buffer find it empty.  They can be broken off;
others cannot even fail. -/
theorem writeDrained_cases {bytes : Bytes} {buffered : BufferedSink}
    (hempty : buffered.capacity ≤ bytes.length → buffered.buffer = []) :
    (∃ left, writeDrained bytes buffered = .ok () left ∧ left.capacity = buffered.capacity ∧
        left.output = buffered.output ++ bytes) ∨
      ∃ e left added, writeDrained bytes buffered = .error e left ∧
        left.capacity = buffered.capacity ∧ Addition buffered.capacity bytes added ∧
        left.output = buffered.output ++ added := by
  unfold writeDrained
  split
  · rename_i hcapacity
    have hbuffer := hempty hcapacity
    simp only [onSink, Sink.writeAll, output, hbuffer, List.append_nil]
    rcases buffered.sink.offer_cases .writeRefused bytes with ⟨sink, hoffer, hwritten⟩ |
      ⟨e, front, unsent, sink, hoffer, hunsent, hbytes, hwritten⟩
    · rw [hoffer]
      exact .inl ⟨_, rfl, rfl, (List.append_nil _).trans hwritten⟩
    · rw [hoffer]
      refine .inr ⟨e, _, front, rfl, rfl, .brokenOff hcapacity hbytes hunsent, ?_⟩
      exact (List.append_nil _).trans hwritten
  · exact .inl ⟨_, rfl, rfl, (List.append_assoc ..).symm⟩

/-- Bytes that just fill a buffer, and are as long as it, leave no room in it for others. -/
theorem buffer_eq_nil_of_fills {buffered : BufferedSink} {bytes : Bytes}
    (hspare : ¬ bytes.length < buffered.spare) (hfills : ¬ buffered.spare < bytes.length)
    (hroom : 0 < buffered.capacity) (hcapacity : buffered.capacity ≤ bytes.length) :
    buffered.buffer = [] := by
  have hlength : buffered.buffer.length = 0 := by
    unfold spare at hspare hfills
    omega
  exact List.eq_nil_of_length_eq_zero hlength

/-- Writing through a buffer adds all of the bytes, or fails.  What was held back goes out in
front of them or stays there, so the output only grows at its end. -/
theorem writeAll_cases {buffered : BufferedSink} (hroom : 0 < buffered.capacity) (bytes : Bytes) :
    (∃ left, writeAll bytes buffered = .ok () left ∧ left.capacity = buffered.capacity ∧
        left.output = buffered.output ++ bytes) ∨
      ∃ e left added, writeAll bytes buffered = .error e left ∧
        left.capacity = buffered.capacity ∧ Addition buffered.capacity bytes added ∧
        left.output = buffered.output ++ added := by
  rw [writeAll_eq]
  split
  · exact .inl ⟨_, rfl, rfl, (List.append_assoc ..).symm⟩
  split
  · rcases drain_cases buffered with ⟨sink, hdrain, hwritten⟩ |
      ⟨e, unsent, sink, hdrain, hwritten⟩
    · rw [hdrain]
      have houtput : output { buffered with buffer := [], sink } = buffered.output := by
        rw [← hwritten]
        exact List.append_nil _
      rw [← houtput]
      exact writeDrained_cases fun _ => rfl
    · rw [hdrain]
      refine .inr ⟨e, _, [], rfl, rfl, .nothing, ?_⟩
      rw [List.append_nil]
      exact hwritten
  · rename_i hspare hfills
    -- not drained, but bytes that just fill the buffer go past it only if it was empty
    exact writeDrained_cases (buffer_eq_nil_of_fills hspare hfills hroom)

/-- A flush that succeeds holds nothing back. -/
theorem flush_cases (buffered : BufferedSink) :
    (∃ left, flush buffered = .ok () left ∧ left.capacity = buffered.capacity ∧
        left.buffer = [] ∧ left.output = buffered.output) ∨
      ∃ e left, flush buffered = .error e left ∧ left.capacity = buffered.capacity ∧
        left.output = buffered.output := by
  simp only [flush, bind, EStateM.bind]
  rcases drain_cases buffered with ⟨sink, hdrain, hwritten⟩ | ⟨e, unsent, sink, hdrain, hwritten⟩
  · rw [hdrain]
    have houtput : sink.written ++ [] = buffered.output := by rw [List.append_nil, hwritten]
    dsimp only [onSink, Sink.flush]
    cases sink.flushScript.head? with
    | none => exact .inl ⟨_, rfl, rfl, rfl, houtput⟩
    | some answer =>
      cases answer with
      | none => exact .inl ⟨_, rfl, rfl, rfl, houtput⟩
      | some f => exact .inr ⟨_, _, rfl, rfl, houtput⟩
  · rw [hdrain]
    exact .inr ⟨e, _, rfl, rfl, hwritten⟩

end BufferedSink

namespace Connection

open BufferedSink (Addition)

variable {connection : Connection}

/-- What a healthy connection sends is added to the output and nothing is held back, or the call
fails.  Then the write has added some of them at most, or the flush has failed behind all of
them. -/
theorem transmit_cases (hhealthy : connection.poisoned = false)
    (hroom : 0 < connection.outbound.capacity) (commands : List Command) :
    (∃ outbound : Outbound, transmit commands connection = .ok () { connection with outbound } ∧
        outbound.capacity = connection.outbound.capacity ∧
        outbound.sink.written = connection.outbound.output ++ Command.encodeAll commands ∧
        outbound.buffer = []) ∨
      ∃ (e : StreamError) (outbound : Outbound) (added : Bytes),
        transmit commands connection = .error (.stream e) { connection with outbound } ∧
        outbound.capacity = connection.outbound.capacity ∧
        Addition connection.outbound.capacity (Command.encodeAll commands) added ∧
        outbound.output = connection.outbound.output ++ added := by
  rw [transmit_of_healthy hhealthy]
  simp only [BufferedSink.writeThrough, bind, EStateM.bind]
  rcases BufferedSink.writeAll_cases hroom (Command.encodeAll commands) with
    ⟨written, hwrite, hcapacity, houtput⟩ | ⟨e, left, added, hwrite, hcapacity, hadded, houtput⟩
  · rw [hwrite]
    dsimp only
    -- from here on the bytes are in the output, and flushing only moves them
    rcases BufferedSink.flush_cases written with ⟨left, hflush, hleft, hbuffer, hflushed⟩ |
      ⟨e, left, hflush, hleft, hflushed⟩
    · rw [hflush]
      have hwritten : left.sink.written = left.output := by
        rw [BufferedSink.output, hbuffer, List.append_nil]
      refine .inl ⟨⟨left, _⟩, rfl, hleft.trans hcapacity, ?_, hbuffer⟩
      rw [hwritten, hflushed, houtput]
    · rw [hflush]
      refine .inr ⟨e, ⟨left, _⟩, _, rfl, hleft.trans hcapacity, .all, ?_⟩
      rw [← houtput]
      exact hflushed
  · rw [hwrite]
    exact .inr ⟨e, ⟨left, _⟩, added, rfl, hcapacity, hadded, houtput⟩

end Connection
end RespCodec
