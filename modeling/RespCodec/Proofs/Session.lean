/-
# Calls on a connection

`performAll` makes calls one after another, going on after errors, and keeps what
each resulted in; `afterAll` is the connection at the end of it.

What a single call does is said here once.  On a poisoned connection it does nothing
at all (`perform_of_poisoned`).  On a healthy one, a call that sends leaves the inbound
direction alone (`exists_outbound_perform`), and a call that receives first makes
sure that there is something to decode (`receive_of_healthy`).
-/

import RespCodec.Connection
import RespCodec.Proofs.Readings

namespace RespCodec

/-- Write bytes, now or later, and flush. -/
def BufferedSink.writeThrough (bytes : Bytes) : EStateM StreamError BufferedSink Unit := do
  writeAll bytes
  flush

namespace Connection

open BufferedSink (writeThrough)

/-- The commands that a call sends. -/
def Call.commands : Call → List Command
  | .send command | .request command => [command]
  | .sendPipeline commands => commands
  | .receive => []

/-- The call sends and does nothing else. -/
def Call.IsSend : Call → Prop
  | .send _ | .sendPipeline _ => True
  | .receive | .request _ => False

instance : DecidablePred Call.IsSend
  | .send _ | .sendPipeline _ => .isTrue trivial
  | .receive | .request _ => .isFalse id

/-- What calls result in, each made on what the one before left. -/
def performAll : List Call → Connection → List (EStateM.Result Error Connection (Option Value))
  | [], _ => []
  | call :: calls, connection =>
    perform call connection :: performAll calls (stateAfter (perform call connection))

/-- The connection that calls leave. -/
def afterAll (calls : List Call) (connection : Connection) : Connection :=
  calls.foldl (fun connection call => stateAfter (perform call connection)) connection

/-- Calls are made one after the other, each on what the one before has left. -/
theorem afterAll_cons (call : Call) (calls : List Call) (connection : Connection) :
    afterAll (call :: calls) connection =
      afterAll calls (stateAfter (perform call connection)) := rfl

variable {connection : Connection}

/-- The flag decides, and the connection is left as it is. -/
theorem ensureHealthy_eq (connection : Connection) :
    ensureHealthy connection =
      if connection.poisoned then .error .poisoned connection else .ok () connection := by
  have hstep : ensureHealthy connection =
      (if connection.poisoned then throw .poisoned else pure () : EStateM Error Connection Unit)
        connection := rfl
  rw [hstep]
  split <;> rfl

/-- A poisoned connection refuses. -/
theorem ensureHealthy_of_poisoned (h : connection.poisoned = true) :
    ensureHealthy connection = .error .poisoned connection := by
  rw [ensureHealthy_eq, if_pos h]

/-- A healthy one goes on. -/
theorem ensureHealthy_of_healthy (h : connection.poisoned = false) :
    ensureHealthy connection = .ok () connection := by
  rw [ensureHealthy_eq, if_neg (Bool.eq_false_iff.1 h)]

/-- Commands are encoded behind what is in the scratch buffer. -/
theorem foldl_encode (commands : List Command) (outbound : Outbound) :
    commands.foldl Outbound.encode outbound =
      { outbound with scratch := outbound.scratch ++ Command.encodeAll commands } := by
  induction commands generalizing outbound with
  | nil => simp [Command.encodeAll]
  | cons command commands ih =>
    rw [List.foldl_cons, ih]
    simp [Outbound.encode, Command.encodeOnto_eq, Command.encodeAll]

/-- What is put together are the encodings of the commands, whatever the scratch buffer
held. -/
theorem prepare_eq (commands : List Command) (connection : Connection) :
    prepare commands connection =
      .ok () { connection with
        outbound := { connection.outbound with scratch := Command.encodeAll commands } } := by
  show EStateM.Result.ok () { connection with
    outbound := commands.foldl Outbound.encode connection.outbound.clear } = _
  rw [foldl_encode]
  rfl

/-- A poisoned connection sends nothing. -/
theorem transmit_of_poisoned (h : connection.poisoned = true) (commands : List Command) :
    transmit commands connection = .error .poisoned connection := by
  simp [transmit, bind, EStateM.bind, ensureHealthy_of_poisoned h]

/-- A healthy connection writes the encodings of the commands and flushes, whatever
was in the scratch buffer. -/
theorem transmit_of_healthy (h : connection.poisoned = false) (commands : List Command) :
    transmit commands connection =
      match writeThrough (Command.encodeAll commands) connection.outbound.toBufferedSink with
      | .ok _ sink =>
        .ok () { connection with outbound := ⟨sink, Command.encodeAll commands⟩ }
      | .error e sink =>
        .error (.stream e)
          { connection with outbound := ⟨sink, Command.encodeAll commands⟩ } := by
  simp only [transmit, writeThrough, bind, EStateM.bind, ensureHealthy_of_healthy h, prepare_eq]
  dsimp only [get, getThe, MonadStateOf.get, EStateM.get, onOutbound]
  cases BufferedSink.writeAll (Command.encodeAll commands) connection.outbound.toBufferedSink with
  | error e left => rfl
  | ok _ written =>
    dsimp only
    cases BufferedSink.flush written <;> rfl

/-- A poisoned connection receives nothing. -/
theorem receive_of_poisoned (h : connection.poisoned = true) :
    receive connection = .error .poisoned connection := by
  simp [receive, bind, EStateM.bind, ensureHealthy_of_poisoned h]

/-- Sending changes the outbound direction only, whether it fails or not. -/
theorem exists_outbound_transmit (commands : List Command) (connection : Connection) :
    ∃ outbound, transmit commands connection = .ok () { connection with outbound } ∨
      ∃ e, transmit commands connection = .error e { connection with outbound } := by
  rcases Bool.eq_false_or_eq_true connection.poisoned with h | h
  · exact ⟨connection.outbound, .inr ⟨_, transmit_of_poisoned h commands⟩⟩
  · rw [transmit_of_healthy h]
    cases writeThrough (Command.encodeAll commands) connection.outbound.toBufferedSink with
    | error e sink => exact ⟨_, .inr ⟨_, rfl⟩⟩
    | ok _ sink => exact ⟨_, .inl rfl⟩

/-- A call that only sends transmits its commands. -/
theorem perform_of_isSend {call : Call} (h : call.IsSend) (connection : Connection) :
    perform call connection =
      match transmit call.commands connection with
      | .ok _ left => .ok none left
      | .error e left => .error e left := by
  cases call with
  | send command =>
    simp only [perform, send, Call.commands, bind, EStateM.bind]
    cases transmit [command] connection <;> rfl
  | sendPipeline commands =>
    simp only [perform, sendPipeline, Call.commands, bind, EStateM.bind]
    cases transmit commands connection <;> rfl
  | receive | request => exact absurd h id

/-- It changes the outbound direction only, whether it fails or not. -/
theorem exists_outbound_perform {call : Call} (h : call.IsSend) (connection : Connection) :
    ∃ outbound, perform call connection = .ok none { connection with outbound } ∨
      ∃ e, perform call connection = .error e { connection with outbound } := by
  rw [perform_of_isSend h]
  obtain ⟨outbound, hsent | ⟨e, hsent⟩⟩ :=
    exists_outbound_transmit call.commands connection
  · rw [hsent]
    exact ⟨outbound, .inl rfl⟩
  · rw [hsent]
    exact ⟨outbound, .inr ⟨e, rfl⟩⟩

/-- A healthy connection waits for the first byte of a reply, and decodes the
reply if there is one. -/
theorem receive_of_healthy (h : connection.poisoned = false) :
    receive connection = match Inbound.fill connection.inbound with
      | .error e inbound => .error (.stream e) { connection with inbound }
      | .ok _ inbound =>
        if inbound.buffer.isEmpty then
          .error (.stream .nothingToRead) { connection with inbound }
        else decodeReply { connection with inbound } := by
  simp only [receive, bind, EStateM.bind, ensureHealthy_of_healthy h, onInbound]
  cases Inbound.fill connection.inbound with
  | error e inbound => rfl
  | ok _ inbound =>
    dsimp only [get, getThe, MonadStateOf.get, EStateM.get]
    split <;> rfl

/-- A poisoned connection refuses every call and stays as it is. -/
theorem perform_of_poisoned (h : connection.poisoned = true) (call : Call) :
    perform call connection = .error .poisoned connection := by
  cases call with
  | send | sendPipeline =>
    simp [perform, send, sendPipeline, bind, EStateM.bind, transmit_of_poisoned h]
  | receive => simp [perform, Functor.map, EStateM.map, receive_of_poisoned h]
  | request =>
    simp [perform, Functor.map, EStateM.map, request, send, bind, EStateM.bind,
      transmit_of_poisoned h]

/-- So it does however often it is called. -/
theorem afterAll_of_poisoned (h : connection.poisoned = true) (calls : List Call) :
    afterAll calls connection = connection := by
  induction calls with
  | nil => rfl
  | cons call calls ih =>
    rw [afterAll_cons, perform_of_poisoned h]
    exact ih

end Connection
end RespCodec
