/-
# Sending to a sink that makes progress

A sink may take its bytes in parts and may ask for a write to be made again.  As long as
it takes something in the end, nobody who sends can tell: offering bytes to it comes to
the same as handing them over at once (`Sink.offer_of_smooth`).

So every call that sends succeeds, however its bytes compare with the buffer: held back,
held back behind a drain, or written past an empty buffer.  Behind each call all commands
so far are written and nothing else is, the buffer is empty, and the scratch buffer holds
the commands of that call alone (`Connection.perform_of_steady`).  How commands are grouped
into calls makes no difference to the bytes, only to the number of flushes
(`Connection.written_of_steady`).
-/

import RespCodec.Proofs.Framing
import RespCodec.Sink.Pipeline

namespace RespCodec

/-- The write takes a byte or more, or has to be made again. -/
def Acceptance.IsSmooth : Acceptance → Prop
  | accept most => 1 ≤ most
  | fault f => f.isInterruption = true

instance : DecidablePred Acceptance.IsSmooth
  | .accept most => inferInstanceAs (Decidable (1 ≤ most))
  | .fault f => inferInstanceAs (Decidable (f.isInterruption = true))

namespace Sink

/-- No write fails or takes nothing. -/
def IsSmooth (sink : Sink) : Prop := ∀ answer ∈ sink.acceptances, answer.IsSmooth

/-- No flush fails. -/
def FlushesWell (sink : Sink) : Prop := ∀ answer ∈ sink.flushScript, answer = none

instance (sink : Sink) : Decidable sink.IsSmooth :=
  inferInstanceAs (Decidable (∀ answer ∈ sink.acceptances, answer.IsSmooth))

instance (sink : Sink) : Decidable sink.FlushesWell :=
  inferInstanceAs (Decidable (∀ answer ∈ sink.flushScript, answer = none))

/-- What becomes of a sink that took bytes, with `script` to answer by from then on. -/
def took (sink : Sink) (bytes : Bytes) (script : List Acceptance) : Sink :=
  { sink with written := sink.written ++ bytes, acceptances := script }

/-- A stream that refuses nothing takes all the bytes, in as many steps as it likes, and goes on
refusing nothing.  By induction on the offer: an answer is used up with bytes taken or with an
interruption passed over. -/
theorem offerFrom_of_smooth (refusal : StreamError) {script : List Acceptance} (bytes : Bytes)
    (sink : Sink) (h : ∀ answer ∈ script, answer.IsSmooth) :
    ∃ left, offerFrom refusal script bytes sink = ⟨[], none, sink.took bytes left⟩ ∧
      ∀ answer ∈ left, answer.IsSmooth := by
  fun_induction offerFrom refusal script bytes sink with
  | case1 script sink => exact ⟨script, by simp [took], h⟩
  | case2 b bytes sink => exact ⟨[], rfl, h⟩
  | case3 script b bytes sink =>
    exact absurd (h _ List.mem_cons_self) (Nat.not_succ_le_zero 0)
  | case4 most script b bytes sink _ ih =>
    obtain ⟨left, hoffer, hleft⟩ :=
      ih fun answer hanswer => h answer (List.mem_cons_of_mem _ hanswer)
    refine ⟨left, ?_, hleft⟩
    rw [hoffer, took, took, List.append_assoc, List.take_append_drop]
  | case5 f script b bytes sink _ ih =>
    exact ih fun answer hanswer => h answer (List.mem_cons_of_mem _ hanswer)
  | case6 f script b bytes sink hfault => exact absurd (h _ List.mem_cons_self) hfault

/-- A sink that makes progress takes all that it is offered. -/
theorem offer_of_smooth {sink : Sink} (h : sink.IsSmooth) (refusal : StreamError) (bytes : Bytes) :
    ∃ script, sink.offer refusal bytes = ⟨[], none, sink.took bytes script⟩ ∧
      (sink.took bytes script).IsSmooth :=
  offerFrom_of_smooth refusal bytes sink h

/-- So a write to it succeeds, and what was written before stays in front. -/
theorem writeAll_of_smooth {sink : Sink} (h : sink.IsSmooth) (bytes : Bytes) :
    ∃ script, writeAll bytes sink = .ok () (sink.took bytes script) ∧
      (sink.took bytes script).IsSmooth := by
  obtain ⟨script, hoffer, hsmooth⟩ := offer_of_smooth h .writeRefused bytes
  refine ⟨script, ?_, hsmooth⟩
  rw [writeAll, hoffer]

/-- Commands written one by one are written like all of them at once. -/
theorem forM_writeCommand_of_smooth {sink : Sink} (h : sink.IsSmooth) (commands : List Command) :
    ∃ script, commands.forM writeCommand sink =
        .ok () (sink.took (Command.encodeAll commands) script) ∧
      (sink.took (Command.encodeAll commands) script).IsSmooth := by
  induction commands generalizing sink with
  | nil =>
    have htook : sink.took (Command.encodeAll []) sink.acceptances = sink := by
      simp [took, Command.encodeAll]
    exact ⟨sink.acceptances, by rw [htook]; rfl, htook ▸ h⟩
  | cons command commands ih =>
    obtain ⟨script, hwrite, hsmooth⟩ := writeAll_of_smooth h command.encode
    obtain ⟨left, hrest, hsmooth⟩ := ih hsmooth
    have htook : (sink.took command.encode script).took (Command.encodeAll commands) left =
        sink.took (Command.encodeAll (command :: commands)) left := by
      simp [took, Command.encodeAll]
    rw [htook] at hrest hsmooth
    refine ⟨left, ?_, hsmooth⟩
    show EStateM.bind (writeCommand command) (fun _ => commands.forM writeCommand) sink = _
    simp only [EStateM.bind, writeCommand, hwrite]
    exact hrest

/-- A flush is counted, and changes nothing else that can be seen. -/
theorem flush_of_flushesWell {sink : Sink} (h : sink.FlushesWell) :
    flush sink = .ok ()
      { sink with flushes := sink.flushes + 1, flushScript := sink.flushScript.tail } := by
  unfold flush
  cases hscript : sink.flushScript with
  | nil => rfl
  | cons answer script =>
    obtain rfl : answer = none := h answer (hscript ▸ List.mem_cons_self)
    rfl

end Sink

namespace BufferedSink

variable {buffered : BufferedSink}

/-- Bytes were written or held back behind those before, and there was no flush. -/
structure Adds (buffered : BufferedSink) (bytes : Bytes) (left : BufferedSink) : Prop where
  capacity : left.capacity = buffered.capacity
  output : left.output = buffered.output ++ bytes
  flushes : left.sink.flushes = buffered.sink.flushes
  flushScript : left.sink.flushScript = buffered.sink.flushScript
  smooth : left.sink.IsSmooth

/-- Bytes that are held back are output that is not written yet. -/
theorem hold_adds (h : buffered.sink.IsSmooth) (bytes : Bytes) :
    ∃ left, hold bytes buffered = .ok () left ∧ buffered.Adds bytes left :=
  ⟨_, rfl, rfl, (List.append_assoc ..).symm, rfl, rfl, h⟩

/-- Draining writes what is held back and adds nothing to the output. -/
theorem drain_adds (h : buffered.sink.IsSmooth) :
    ∃ left, drain buffered = .ok () left ∧ buffered.Adds [] left ∧ left.buffer = [] := by
  obtain ⟨script, hoffer, hsmooth⟩ := Sink.offer_of_smooth h .drainRefused buffered.buffer
  rw [drain, hoffer]
  exact ⟨_, rfl, ⟨rfl, rfl, rfl, rfl, hsmooth⟩, rfl⟩

/-- Where there is room the bytes are held back, and where there is none they go to the stream,
behind all that was there. -/
theorem writeDrained_adds (h : buffered.sink.IsSmooth) (bytes : Bytes)
    (hempty : buffered.capacity ≤ bytes.length → buffered.buffer = []) :
    ∃ left, writeDrained bytes buffered = .ok () left ∧ buffered.Adds bytes left := by
  unfold writeDrained
  split
  · rename_i hcapacity
    obtain ⟨script, hwrite, hsmooth⟩ := Sink.writeAll_of_smooth h bytes
    rw [onSink, hwrite]
    refine ⟨_, rfl, rfl, ?_, rfl, rfl, hsmooth⟩
    simp [output, hempty hcapacity, Sink.took]
  · exact hold_adds h bytes

/-- Whichever way bytes take through a buffer, they end up behind those before. -/
theorem writeAll_adds (h : buffered.sink.IsSmooth) (hroom : 0 < buffered.capacity) (bytes : Bytes) :
    ∃ left, writeAll bytes buffered = .ok () left ∧ buffered.Adds bytes left := by
  rw [writeAll_eq]
  split
  · exact hold_adds h bytes
  split
  · obtain ⟨drained, hdrain, hadds, hbuffer⟩ := drain_adds h
    obtain ⟨left, hwrite, hleft⟩ := writeDrained_adds hadds.smooth bytes fun _ => hbuffer
    rw [hdrain]
    refine ⟨left, hwrite, hleft.capacity.trans hadds.capacity, ?_,
      hleft.flushes.trans hadds.flushes, hleft.flushScript.trans hadds.flushScript, hleft.smooth⟩
    rw [hleft.output, hadds.output, List.append_nil]
  · rename_i hspare hfills
    exact writeDrained_adds h bytes (buffer_eq_nil_of_fills hspare hfills hroom)

/-- Bytes were written behind those before, with one flush and nothing held back. -/
structure Sends (buffered : BufferedSink) (bytes : Bytes) (left : BufferedSink) : Prop where
  capacity : left.capacity = buffered.capacity
  written : left.sink.written = buffered.output ++ bytes
  buffer : left.buffer = []
  flushes : left.sink.flushes = buffered.sink.flushes + 1
  smooth : left.sink.IsSmooth
  flushesWell : left.sink.FlushesWell

/-- A write and a flush leave nothing held back, and flush the stream once.  Whether the write
drained the buffer on its way makes no difference behind the flush. -/
theorem writeThrough_sends (h : buffered.sink.IsSmooth) (hflush : buffered.sink.FlushesWell)
    (hroom : 0 < buffered.capacity) (bytes : Bytes) :
    ∃ left, writeThrough bytes buffered = .ok () left ∧ buffered.Sends bytes left := by
  obtain ⟨written, hwrite, hadds⟩ := writeAll_adds h hroom bytes
  obtain ⟨drained, hdrain, hdrained, hbuffer⟩ := drain_adds hadds.smooth
  -- neither the write nor the drain asks for a flush, so the script of flushes is as it was
  have hscript : drained.sink.flushScript = buffered.sink.flushScript :=
    hdrained.flushScript.trans hadds.flushScript
  have hwell : drained.sink.FlushesWell := fun answer hanswer => hflush answer (hscript ▸ hanswer)
  have hwritten : drained.sink.written = buffered.output ++ bytes := by
    have hdrainedOutput := hdrained.output
    rw [output, hbuffer, List.append_nil, List.append_nil, hadds.output] at hdrainedOutput
    exact hdrainedOutput
  have hrun : writeThrough bytes buffered = .ok () { drained with
      sink := { drained.sink with
        flushes := drained.sink.flushes + 1, flushScript := drained.sink.flushScript.tail } } := by
    simp only [writeThrough, flush, bind, EStateM.bind, hwrite, hdrain, onSink,
      Sink.flush_of_flushesWell hwell]
  refine ⟨_, hrun, hdrained.capacity.trans hadds.capacity, hwritten, hbuffer, ?_, hdrained.smooth,
    fun answer hanswer => hwell answer (List.mem_of_mem_tail hanswer)⟩
  exact congrArg (· + 1) (hdrained.flushes.trans hadds.flushes)

end BufferedSink

namespace Connection

/-- A healthy connection with a buffer, over a sink that makes progress. -/
structure Steady (connection : Connection) : Prop where
  healthy : connection.poisoned = false
  room : 1 ≤ connection.outbound.capacity
  smooth : connection.outbound.sink.IsSmooth
  flushesWell : connection.outbound.sink.FlushesWell

variable {connection : Connection}

/-- Step: a call that sends succeeds, and whatever it finds in the scratch buffer and held
back, behind it the commands are written, once and after one flush. -/
theorem perform_of_steady (h : connection.Steady) {call : Call} (hsend : call.IsSend) :
    ∃ left, perform call connection = .ok none left ∧ left.Steady ∧
      connection.outbound.Sends (Command.encodeAll call.commands) left.outbound.toBufferedSink ∧
      left.outbound.scratch = Command.encodeAll call.commands := by
  obtain ⟨sink, hwrite, hsends⟩ := BufferedSink.writeThrough_sends h.smooth h.flushesWell h.room
    (Command.encodeAll call.commands)
  rw [perform_of_isSend hsend, transmit_of_healthy h.healthy, hwrite]
  exact ⟨_, rfl, ⟨h.healthy, hsends.capacity ▸ h.room, hsends.smooth, hsends.flushesWell⟩, hsends,
    rfl⟩

/-- Run: calls that send leave the connection steady, all commands sent, and a flush counted for
each call.  By induction on the calls, each of which finds a steady connection and leaves one. -/
theorem afterAll_of_steady (h : connection.Steady) {calls : List Call}
    (hsends : ∀ call ∈ calls, call.IsSend) :
    (afterAll calls connection).Steady ∧
      (afterAll calls connection).outbound.output =
        connection.outbound.output ++ Command.encodeAll (calls.flatMap Call.commands) ∧
      (afterAll calls connection).outbound.sink.flushes =
        connection.outbound.sink.flushes + calls.length ∧
      (connection.outbound.buffer = [] → (afterAll calls connection).outbound.buffer = []) := by
  induction calls generalizing connection with
  | nil => exact ⟨h, (List.append_nil _).symm, rfl, id⟩
  | cons call calls ih =>
    obtain ⟨left, hperform, hsteady, hsent, -⟩ :=
      perform_of_steady h (hsends call List.mem_cons_self)
    obtain ⟨hrest, houtput, hflushes, hbuffer⟩ :=
      ih hsteady fun other hother => hsends other (List.mem_cons_of_mem _ hother)
    rw [afterAll_cons, hperform]
    refine ⟨hrest, ?_, ?_, fun _ => hbuffer hsent.buffer⟩
    -- the first call leaves nothing in the buffer
    · have hleft : left.outbound.output =
          connection.outbound.output ++ Command.encodeAll call.commands := by
        rw [BufferedSink.output, hsent.buffer, List.append_nil, hsent.written]
      show (afterAll calls left).outbound.output = _
      rw [houtput, hleft, List.flatMap_cons, Command.encodeAll_append, List.append_assoc]
    · show (afterAll calls left).outbound.sink.flushes = _
      rw [hflushes, hsent.flushes, List.length_cons]
      omega

/-- With nothing held back, everything that goes out is written. -/
theorem written_eq_output {outbound : Outbound} (h : outbound.buffer = []) :
    outbound.sink.written = outbound.output := by
  rw [BufferedSink.output, h, List.append_nil]

/-- Commands in one call are written like commands in a call each. -/
theorem written_sendPipeline (h : connection.Steady) (hbuffer : connection.outbound.buffer = [])
    (commands : List Command) :
    (afterAll [.sendPipeline commands] connection).outbound.sink.written =
      (afterAll (commands.map .send) connection).outbound.sink.written := by
  have hpipeline : ∀ call ∈ [Call.sendPipeline commands], call.IsSend := by simp [Call.IsSend]
  have hsends : ∀ call ∈ commands.map Call.send, call.IsSend := by simp [Call.IsSend]
  obtain ⟨-, houtput, -, hempty⟩ := afterAll_of_steady h hpipeline
  obtain ⟨-, houtput', -, hempty'⟩ := afterAll_of_steady h hsends
  rw [written_eq_output (hempty hbuffer), written_eq_output (hempty' hbuffer), houtput, houtput']
  simp [List.flatMap_map, Call.commands]

/-- Lossless sending: **over a sink that makes progress every call that sends succeeds, and
behind it all commands so far are written, in order, and nothing else is.**  Nothing is
held back, the scratch buffer holds the commands of that call, and each call flushes once.
So it makes no difference to the bytes whether commands go out together or one by one, and
none when they are written to the sink itself, which is not flushed then. -/
theorem written_of_steady (h : connection.Steady) :
    (∀ (before : List Call) (call : Call), (∀ other ∈ before, other.IsSend) → call.IsSend →
        ∃ left, perform call (afterAll before connection) = .ok none left ∧
          left.outbound.sink.written = connection.outbound.output ++
            Command.encodeAll ((before ++ [call]).flatMap Call.commands) ∧
          left.outbound.buffer = [] ∧
          left.outbound.scratch = Command.encodeAll call.commands ∧
          left.outbound.sink.flushes =
            connection.outbound.sink.flushes + (before ++ [call]).length) ∧
      (connection.outbound.buffer = [] → ∀ commands : List Command,
        (afterAll [.sendPipeline commands] connection).outbound.sink.written =
          (afterAll (commands.map .send) connection).outbound.sink.written) ∧
      ∀ sink : Sink, sink.IsSmooth → ∀ commands : List Command, ∃ left left',
        Sink.writePipeline commands sink = .ok () left ∧
          commands.forM Sink.writeCommand sink = .ok () left' ∧
          left.written = sink.written ++ Command.encodeAll commands ∧
          left'.written = left.written ∧
          left.flushes = sink.flushes ∧ left'.flushes = sink.flushes := by
  refine ⟨?_, ?_, ?_⟩
  · intro before call hbefore hcall
    obtain ⟨hsteady, houtput, hflushes, -⟩ := afterAll_of_steady h hbefore
    obtain ⟨left, hperform, -, hsent, hscratch⟩ := perform_of_steady hsteady hcall
    refine ⟨left, hperform, ?_, hsent.buffer, hscratch, ?_⟩
    · rw [hsent.written, houtput, List.flatMap_append, List.flatMap_singleton,
        Command.encodeAll_append, List.append_assoc]
    · rw [hsent.flushes, hflushes, List.length_append, List.length_singleton, Nat.add_assoc]
  · exact written_sendPipeline h
  · intro sink hsmooth commands
    obtain ⟨script, hpipeline, -⟩ := Sink.writeAll_of_smooth hsmooth (Command.encodeAll commands)
    obtain ⟨script', hcommands, -⟩ := Sink.forM_writeCommand_of_smooth hsmooth commands
    exact ⟨_, _, hpipeline, hcommands, rfl, rfl, rfl, rfl⟩

/-- A peer that takes a few bytes at a time, and wants some writes made again. -/
def dribbling : Endpoint where
  sink := { acceptances := [.accept 5, .fault ⟨.interrupted, "again"⟩, .accept 1, .accept 100,
    .fault ⟨.interrupted, "again"⟩, .accept 3] }

/-- A command that fits in the buffer, and then two that go past it. -/
theorem written_dribbling :
    (ofEndpoint { writeBuffer := 16 } dribbling).Steady ∧
      ∃ left, perform (.sendPipeline [ping, ping])
          (afterAll [.send ping] (ofEndpoint { writeBuffer := 16 } dribbling)) = .ok none left ∧
        left.outbound.sink.written = Command.encodeAll [ping, ping, ping] ∧
        left.outbound.buffer = [] ∧ left.outbound.scratch = Command.encodeAll [ping, ping] ∧
        left.outbound.sink.flushes = 2 := by
  have hsteady : (ofEndpoint { writeBuffer := 16 } dribbling).Steady :=
    ⟨rfl, by decide, by decide, by decide⟩
  exact ⟨hsteady, (written_of_steady hsteady).1 [.send ping] (.sendPipeline [ping, ping])
    (by decide) (by decide)⟩

end Connection
end RespCodec
