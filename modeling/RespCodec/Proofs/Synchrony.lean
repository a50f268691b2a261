/-
# A connection keeps step with its bytes

Bytes arrive with pauses and faults between them, and a call may fail at any of
these.  Still the values that a connection receives are those that its bytes are
written for, one after another from the first.

The invariant is that a connection that is not poisoned stands where a value
starts: the bytes in front of it are those that the values received so far leave.
A call keeps it in one of three ways (`Connection.InStep`).  It receives the value at
the head of those bytes, it leaves them as they are, or it poisons the connection, and
then no later call receives anything.

A reply is decoded from an input that may still pause or fail.  Where decoding
succeeds in spite of that, it does what it would have done on the bytes
(`decode_bytes_of_ok`).
-/

import RespCodec.Proofs.Deliveries
import RespCodec.Proofs.Session

namespace RespCodec

/-- Where an answer of an input leads to success, so does the answer of its bytes. -/
theorem Inbound.Answer.resume_eq_ok {α β : Type} {script : List Delivery}
    {r : EStateM.Result StreamError Inbound β} {r' : EStateM.Result StreamError Bytes β}
    (hanswer : Answer script r r') {next : β → Decoder α} {a : α} {left : Inbound}
    (hnext : ∀ b {inbound : Inbound}, (next b).run inbound = .ok a left →
      (next b).run inbound.bytes = .ok a left.bytes)
    (h : Decoder.resume next r = .ok a left) :
    Decoder.resume next r' = .ok a left.bytes := by
  cases hanswer with
  | ok => exact hnext _ h
  | error | broken => cases h

/-- A decoder that succeeds on an input succeeds on its bytes.  By induction on the decoder:
where the input answers a read, the list of its bytes gives the same answer. -/
theorem Decoder.run_bytes_of_ok {α : Type} {d : Decoder α} {inbound left : Inbound} {a : α}
    (h : d.run inbound = .ok a left) : d.run inbound.bytes = .ok a left.bytes := by
  induction d generalizing inbound with
  | done result =>
    cases h
    rfl
  | fail e => cases h
  | byte next ih =>
    rw [run_byte] at h ⊢
    exact inbound.takeByte_answer.resume_eq_ok ih h
  | span wanted next ih =>
    rw [run_span] at h ⊢
    exact (Inbound.spanFrom_answer _ wanted _).resume_eq_ok ih h

/-- A value decoded from an input is the value at the head of its bytes. -/
theorem decode_bytes_of_ok {limits : Limits} {inbound left : Inbound} {value : Value}
    (h : decode limits inbound = .ok value left) :
    decode limits inbound.bytes = .ok value left.bytes := by
  have hsize : ByteSource.size inbound.bytes = ByteSource.size inbound := inbound.length_bytes
  unfold decode at h ⊢
  rw [hsize]
  exact Decoder.run_bytes_of_ok h

/-- Filling a buffer takes no byte away. -/
theorem Inbound.bytes_fill (inbound : Inbound) :
    (stateAfter inbound.fill).bytes = inbound.bytes := by
  obtain ⟨buffer, script⟩ := inbound
  match buffer, script with
  | _ :: _, _ => rfl
  | [], [] => rfl
  | [], .chunk _ :: _ => rfl
  | [], .fault _ :: _ => rfl

namespace Connection

/-- The value that a call received, if it received one. -/
def received : EStateM.Result Error Connection (Option Value) → Option Value
  | .ok value _ => value
  | .error _ _ => none

/-- A call received the value at the head of the bytes in front of the connection,
or left them as they were, or poisoned the connection. -/
inductive InStep (connection : Connection) : Option Value → Connection → Prop
  | value {value : Value} {left : Connection} (hlimits : left.limits = connection.limits)
    (h : decode connection.limits connection.inbound.bytes = .ok value left.inbound.bytes) :
    InStep connection (some value) left
  | still {left : Connection} (hlimits : left.limits = connection.limits)
    (h : left.inbound.bytes = connection.inbound.bytes) : InStep connection none left
  | poisoned {left : Connection} (h : left.poisoned = true) : InStep connection none left

/-- A receive is in step with decoding from the bytes still to come: it decodes the next value, or
leaves them alone. -/
theorem receive_inStep (connection : Connection) :
    InStep connection (received ((some <$> receive) connection))
      (stateAfter ((some <$> receive) connection)) := by
  show InStep connection (received (EStateM.map some receive connection))
    (stateAfter (EStateM.map some receive connection))
  rcases Bool.eq_false_or_eq_true connection.poisoned with hpoisoned | hpoisoned
  · simp only [EStateM.map, receive_of_poisoned hpoisoned]
    exact .still rfl rfl
  -- filling moves bytes into the buffer and takes none away
  · have hfill := connection.inbound.bytes_fill
    simp only [EStateM.map, receive_of_healthy hpoisoned]
    cases hresult : Inbound.fill connection.inbound with
    | error e inbound =>
      rw [hresult] at hfill
      exact .still rfl hfill
    | ok _ inbound =>
      rw [hresult] at hfill
      dsimp only
      by_cases hempty : inbound.buffer.isEmpty = true
      · rw [if_pos hempty]
        exact .still rfl hfill
      rw [if_neg hempty, decodeReply]
      cases hdecode : decode connection.limits inbound with
      | error e left => exact .poisoned rfl
      | ok value left =>
        -- a value does not depend on how its bytes were delivered
        have hbytes := decode_bytes_of_ok hdecode
        rw [show inbound.bytes = connection.inbound.bytes from hfill] at hbytes
        exact .value rfl hbytes

/-- The outbound direction has no part in it. -/
theorem InStep.of_outbound {connection left : Connection} {outbound : Outbound}
    {value? : Option Value} (h : InStep { connection with outbound } value? left) :
    InStep connection value? left := by
  cases h with
  | value hlimits h => exact .value hlimits h
  | still hlimits h => exact .still hlimits h
  | poisoned h => exact .poisoned h

/-- Step: **every call keeps step with the bytes.**  Sending leaves the inbound direction alone,
and a request is a send and a receive. -/
theorem perform_inStep (call : Call) (connection : Connection) :
    InStep connection (received (perform call connection))
      (stateAfter (perform call connection)) := by
  have hsent (hsend : call.IsSend) : InStep connection (received (perform call connection))
      (stateAfter (perform call connection)) := by
    obtain ⟨outbound, h | ⟨e, h⟩⟩ := exists_outbound_perform hsend connection
    · rw [h]
      exact .still rfl rfl
    · rw [h]
      exact .still rfl rfl
  cases call with
  | send | sendPipeline => exact hsent trivial
  | receive => exact receive_inStep connection
  | request command =>
    show InStep connection (received (EStateM.map some (do transmit [command]; receive) _))
      (stateAfter (EStateM.map some (do transmit [command]; receive) _))
    obtain ⟨outbound, h | ⟨e, h⟩⟩ := exists_outbound_transmit [command] connection
    · simp only [EStateM.map, bind, EStateM.bind, h]
      exact (receive_inStep _).of_outbound
    · simp only [EStateM.map, bind, EStateM.bind, h]
      exact .still rfl rfl

/-- The values that calls received, in the order of the calls. -/
def receivedAll (calls : List Call) (connection : Connection) : List Value :=
  (performAll calls connection).filterMap received

/-- A call that received a value puts it in front of those received later. -/
theorem receivedAll_cons_of_some {call : Call} {calls : List Call} {connection : Connection}
    {value : Value} (h : received (perform call connection) = some value) :
    receivedAll (call :: calls) connection =
      value :: receivedAll calls (stateAfter (perform call connection)) :=
  List.filterMap_cons_some h

/-- A call that received none adds nothing. -/
theorem receivedAll_cons_of_none {call : Call} {calls : List Call} {connection : Connection}
    (h : received (perform call connection) = none) :
    receivedAll (call :: calls) connection =
      receivedAll calls (stateAfter (perform call connection)) :=
  List.filterMap_cons_none h

/-- Nothing is received on a poisoned connection. -/
theorem receivedAll_of_poisoned {connection : Connection} (h : connection.poisoned = true)
    (calls : List Call) : receivedAll calls connection = [] := by
  induction calls with
  | nil => rfl
  | cons call calls ih =>
    have hcall := perform_of_poisoned h call
    have hnone : received (perform call connection) = none := by rw [hcall]; rfl
    rw [receivedAll_cons_of_none hnone, hcall]
    exact ih

/-- Run: the values received are those that the bytes in front of the connection are read as,
from the first, and a healthy connection is left where the last of them ends.  By induction on
the calls, from the step. -/
theorem readings_received (calls : List Call) (connection : Connection) :
    (readings connection.limits (receivedAll calls connection).length
        connection.inbound.bytes).1.map (·.outcome) = (receivedAll calls connection).map .ok ∧
      ((afterAll calls connection).poisoned = false →
        (afterAll calls connection).inbound.bytes =
          (readings connection.limits (receivedAll calls connection).length
            connection.inbound.bytes).2) := by
  induction calls generalizing connection with
  | nil => exact ⟨rfl, fun _ => rfl⟩
  | cons call calls ih =>
    have hrest := ih (stateAfter (perform call connection))
    have hstep := perform_inStep call connection
    rw [afterAll_cons]
    -- a value received is the next reading; without one the readings have not moved
    cases hvalue : received (perform call connection) with
    | some value =>
      rw [receivedAll_cons_of_some hvalue]
      generalize stateAfter (perform call connection) = left at hrest hstep ⊢
      rw [hvalue] at hstep
      cases hstep with
      | value hlimits h =>
        rw [hlimits] at hrest
        rw [List.length_cons, readings_succ_of_ok h, List.map_cons, List.map_cons]
        exact ⟨congrArg _ hrest.1, hrest.2⟩
    | none =>
      rw [receivedAll_cons_of_none hvalue]
      generalize stateAfter (perform call connection) = left at hrest hstep ⊢
      rw [hvalue] at hstep
      cases hstep with
      | still hlimits h =>
        rwa [hlimits, h] at hrest
      | poisoned h =>
        -- nothing is received from here on, so there is no reading to account for
        rw [receivedAll_of_poisoned h, afterAll_of_poisoned h]
        exact ⟨rfl, fun hhealthy => absurd (h.symm.trans hhealthy) (by decide)⟩

/-- Synchrony: **the values that calls receive are the first ones that the bytes of
the deliveries are read as,** whatever delays or fails on the way.  Where no read
failed inside a value, the bytes not read yet are those behind the last of them. -/
theorem readings_establish {config : Config} {endpoint : Endpoint} {connection : Connection}
    (h : establish config endpoint = .ok connection) (calls : List Call) :
    (readings config.toLimits (receivedAll calls connection).length
        (endpoint.deliveries.flatMap (·.bytes))).1.map (·.outcome) =
        (receivedAll calls connection).map .ok ∧
      ((afterAll calls connection).poisoned = false →
        (afterAll calls connection).inbound.bytes =
          (readings config.toLimits (receivedAll calls connection).length
            (endpoint.deliveries.flatMap (·.bytes))).2) := by
  have hreadings := readings_received calls connection
  unfold establish at h
  split at h
  · rename_i hvalid
    cases h
    have hroom := ((Config.validate_eq_ok_iff config).1 hvalid).2.2.1
    -- a buffer with room cuts the deliveries up, and loses none of their bytes
    have hbytes : (ofEndpoint config endpoint).inbound.bytes =
        endpoint.deliveries.flatMap (·.bytes) :=
      Inbound.bytes_ofScript hroom endpoint.deliveries
    rwa [hbytes] at hreadings
  · cases h

/-- Two numbers that come late and in parts, and a third that is broken off. -/
def brokenOff : Endpoint where
  deliveries := [.fault ⟨.other "TimedOut", "late"⟩, .chunk (ascii ":1\r".toList),
    .chunk (ascii "\n".toList), .chunk [], .chunk (ascii ":2\r\n:".toList),
    .fault ⟨.other "TimedOut", "late"⟩, .chunk (ascii "3\r\n".toList)]

/-- Receiving goes on after the delays, and stops for good inside the third number. -/
theorem readings_brokenOff :
    establish {} brokenOff = .ok (ofEndpoint {} brokenOff) ∧
      receivedAll [.receive, .request {}, .receive, .receive, .receive, .receive]
        (ofEndpoint {} brokenOff) = [.integer 1, .integer 2] ∧
      (readings {} 2 (brokenOff.deliveries.flatMap (·.bytes))).1.map (·.outcome) =
        [.ok (.integer 1), .ok (.integer 2)] := by
  have hestablish : establish {} brokenOff = .ok (ofEndpoint {} brokenOff) := rfl
  have hscript : Inbound.ofScript 16384 brokenOff.deliveries = ⟨[], brokenOff.deliveries⟩ :=
    Inbound.ofScript_of_size_le (by decide) (by decide)
  have hreceived : receivedAll [.receive, .request {}, .receive, .receive, .receive, .receive]
      (ofEndpoint {} brokenOff) = [.integer 1, .integer 2] := by
    rw [ofEndpoint, hscript]
    rfl
  have hreadings := (readings_establish hestablish
    [.receive, .request {}, .receive, .receive, .receive, .receive]).1
  rw [hreceived] at hreadings
  exact ⟨hestablish, hreceived, hreadings⟩

end Connection
end RespCodec
