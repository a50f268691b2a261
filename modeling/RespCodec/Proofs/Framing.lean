/-
# Whole commands

A peer reads commands one behind the other, so a command that is broken off makes it
read the next one as the rest of it.

Each call that sends adds something to the output (`Connection.Contributes`): all of its
commands if it succeeds.  What calls add, in their order, is all that goes out
(`Connection.exists_contributions`).  Where no call failed with more bytes than the
buffer can hold, nothing is broken off, and what was written at the end of a call that
succeeds is whole commands (`Connection.written_wholeCommands`).

Bytes longer than the buffer go past it, and there a failure leaves the front of a
command behind for good.  A later call then succeeds all the same
(`Connection.written_choked`).
-/

import Mathlib.Data.List.Forall2
import Mathlib.Data.List.Sublists
import RespCodec.Proofs.Outbound

namespace RespCodec

/-- Commands sent in two lots go over the wire as in one. -/
theorem Command.encodeAll_append (commands others : List Command) :
    encodeAll (commands ++ others) = encodeAll commands ++ encodeAll others :=
  List.flatMap_append

namespace Connection

open BufferedSink (Addition)

/-- A call that was made, and what it resulted in. -/
abbrev Entry := Call × EStateM.Result Error Connection (Option Value)

/-- Calls made one after another, and what each resulted in. -/
def log (calls : List Call) (connection : Connection) : List Entry :=
  calls.zip (performAll calls connection)

/-- The first entry of a log is the first call, and the rest is the log of what that call left. -/
theorem log_cons (call : Call) (calls : List Call) (connection : Connection) :
    log (call :: calls) connection =
      (call, perform call connection) :: log calls (stateAfter (perform call connection)) := rfl

/-- A log has an entry for each call, in their order, failed ones included. -/
theorem map_fst_log (calls : List Call) (connection : Connection) :
    (log calls connection).map (·.1) = calls := by
  induction calls generalizing connection with
  | nil => rfl
  | cons call calls ih => rw [log_cons, List.map_cons, ih]

/-- The call succeeded. -/
def Entry.succeeded (entry : Entry) : Bool :=
  match entry.2 with
  | .ok _ _ => true
  | .error _ _ => false

/-- What a call that sends has added to the output. -/
inductive Contributes (capacity : Nat) : Entry → Bytes → Prop
  | sent {call : Call} {value? : Option Value} {left : Connection} :
    Contributes capacity (call, .ok value? left) (Command.encodeAll call.commands)
  | failed {call : Call} {e : Error} {left : Connection} {added : Bytes}
    (h : Addition capacity (Command.encodeAll call.commands) added) :
    Contributes capacity (call, .error e left) added

/-- A connection that can send. -/
structure Ready (capacity : Nat) (connection : Connection) : Prop where
  healthy : connection.poisoned = false
  capacity : connection.outbound.capacity = capacity

variable {capacity : Nat} {connection : Connection}

/-- Step: a call that sends contributes to the output, and leaves the connection ready.  That is
all of its bytes if it succeeds, and what the write or the flush let through if it fails. -/
theorem perform_contributes (hroom : 0 < capacity) (hready : connection.Ready capacity)
    {call : Call} (hsend : call.IsSend) :
    ∃ added, Contributes capacity (call, perform call connection) added ∧
      (stateAfter (perform call connection)).outbound.output =
        connection.outbound.output ++ added ∧
      (stateAfter (perform call connection)).Ready capacity := by
  obtain ⟨hhealthy, rfl⟩ := hready
  rw [perform_of_isSend hsend]
  rcases transmit_cases hhealthy hroom call.commands with
    ⟨outbound, htransmit, hcapacity, hwritten, hbuffer⟩ |
    ⟨e, outbound, added, htransmit, hcapacity, hadded, houtput⟩
  · rw [htransmit]
    refine ⟨_, .sent, ?_, ⟨hhealthy, hcapacity⟩⟩
    -- a call that succeeds holds nothing back, so the output is what was written
    show outbound.sink.written ++ outbound.buffer = _
    rw [hbuffer, List.append_nil, hwritten]
  · rw [htransmit]
    exact ⟨added, .failed hadded, houtput, ⟨hhealthy, hcapacity⟩⟩

/-- A call that sends and succeeds leaves its commands written, behind all that went
out before, and holds nothing back. -/
theorem sent_of_perform (hroom : 0 < capacity) (hready : connection.Ready capacity)
    {call : Call} (hsend : call.IsSend) {value? : Option Value} {left : Connection}
    (hok : perform call connection = .ok value? left) :
    left.outbound.sink.written =
        connection.outbound.output ++ Command.encodeAll call.commands ∧
      left.outbound.buffer = [] := by
  obtain ⟨hhealthy, rfl⟩ := hready
  rw [perform_of_isSend hsend] at hok
  rcases transmit_cases hhealthy hroom call.commands with
    ⟨outbound, htransmit, -, hwritten, hbuffer⟩ | ⟨e, outbound, added, htransmit, -, -, -⟩
  · rw [htransmit] at hok
    cases hok
    exact ⟨hwritten, hbuffer⟩
  · rw [htransmit] at hok
    cases hok

/-- After a send that succeeds all that was held back has been written, and the commands of the call
behind it. -/
theorem written_of_perform (hroom : 0 < capacity) (hready : connection.Ready capacity)
    {call : Call} (hsend : call.IsSend) {value? : Option Value} {left : Connection}
    (hok : perform call connection = .ok value? left) :
    left.outbound.sink.written =
      connection.outbound.output ++ Command.encodeAll call.commands :=
  (sent_of_perform hroom hready hsend hok).1

/-- Run: **behind each call, what went out is what the calls so far contributed,** in their
order.  By induction on the calls, as each leaves the connection ready for the next, failed or
not. -/
theorem exists_contributions_take (hroom : 0 < capacity) {calls : List Call}
    (hsends : ∀ call ∈ calls, call.IsSend) (hready : connection.Ready capacity) :
    ∃ added, List.Forall₂ (Contributes capacity) (log calls connection) added ∧
      ∀ n, (afterAll (calls.take n) connection).outbound.output =
          connection.outbound.output ++ (added.take n).flatten ∧
        (afterAll (calls.take n) connection).Ready capacity := by
  induction calls generalizing connection with
  | nil =>
    refine ⟨[], .nil, fun n => ?_⟩
    rw [List.take_nil, List.take_nil]
    exact ⟨(List.append_nil _).symm, hready⟩
  | cons call calls ih =>
    obtain ⟨first, hfirst, houtput, hnext⟩ :=
      perform_contributes hroom hready (hsends call List.mem_cons_self)
    obtain ⟨added, hadded, hrest⟩ :=
      ih (fun other hother => hsends other (List.mem_cons_of_mem _ hother)) hnext
    rw [log_cons]
    refine ⟨first :: added, .cons hfirst hadded, fun n => ?_⟩
    cases n with
    | zero => exact ⟨(List.append_nil _).symm, hready⟩
    | succ n =>
      obtain ⟨hout, hready⟩ := hrest n
      rw [List.take_succ_cons, List.take_succ_cons, afterAll_cons]
      refine ⟨?_, hready⟩
      rw [hout, houtput, List.flatten_cons, List.append_assoc]

/-- Each call contributes one piece, if only an empty one. -/
theorem length_of_contributes {calls : List Call} {added : List Bytes}
    (h : List.Forall₂ (Contributes capacity) (log calls connection) added) :
    added.length = calls.length := by
  rw [← h.length_eq, ← List.length_map (·.1), map_fst_log]

/-- What goes out in the end is what all calls contributed. -/
theorem exists_contributions (hroom : 0 < capacity) {calls : List Call}
    (hsends : ∀ call ∈ calls, call.IsSend) (hready : connection.Ready capacity) :
    ∃ added, List.Forall₂ (Contributes capacity) (log calls connection) added ∧
      (afterAll calls connection).outbound.output =
        connection.outbound.output ++ added.flatten ∧
      (afterAll calls connection).Ready capacity := by
  obtain ⟨added, hadded, htake⟩ := exists_contributions_take hroom hsends hready
  have hall := htake calls.length
  rw [List.take_length, ← length_of_contributes hadded, List.take_length] at hall
  exact ⟨added, hadded, hall⟩

/-- Where no call failed with more bytes than fit in the buffer, whole calls were contributed,
those that succeeded among them.  By induction on the log: a call that failed with fewer bytes
has added all of them or none, so it is kept or left out. -/
theorem exists_kept {entries : List Entry} {added : List Bytes}
    (h : List.Forall₂ (Contributes capacity) entries added)
    (hshort : ∀ entry ∈ entries, entry.succeeded = false →
      (Command.encodeAll entry.1.commands).length < capacity) :
    ∃ kept : List Call, kept.Sublist (entries.map (·.1)) ∧
      ((entries.filter (·.succeeded)).map (·.1)).Sublist kept ∧
      added.flatten = Command.encodeAll (kept.flatMap Call.commands) := by
  induction h with
  | nil => exact ⟨[], .slnil, .slnil, rfl⟩
  | cons hfirst _ ih =>
    obtain ⟨kept, hkept, hsucceeded, hbytes⟩ :=
      ih fun other hother => hshort other (List.mem_cons_of_mem _ hother)
    have hencode (call : Call) : Command.encodeAll call.commands ++
        Command.encodeAll (kept.flatMap Call.commands) =
        Command.encodeAll ((call :: kept).flatMap Call.commands) := by
      rw [List.flatMap_cons, Command.encodeAll_append]
    rw [List.flatten_cons, hbytes]
    cases hfirst with
    | sent =>
      exact ⟨_ :: kept, hkept.cons_cons _, hsucceeded.cons_cons _, hencode _⟩
    | failed hadded =>
      cases hadded with
      | all => exact ⟨_ :: kept, hkept.cons_cons _, hsucceeded.cons _, hencode _⟩
      | nothing => exact ⟨kept, hkept.cons _, hsucceeded, rfl⟩
      | brokenOff hcapacity =>
        -- only as many bytes as the buffer holds, or more, can be broken off
        have hlength := hshort _ List.mem_cons_self rfl
        exact absurd hlength (Nat.not_lt_of_le hcapacity)

/-- Whole commands: **what was written when a call succeeds is what the calls before it
contributed, and its commands.**  Where none of them failed with more bytes than fit in
the buffer, that is whole commands of the calls in their order, with those of all calls
that succeeded among them. -/
theorem written_wholeCommands {config : Config} {endpoint : Endpoint}
    (hroom : 1 ≤ config.writeBuffer) {calls : List Call} (hsends : ∀ call ∈ calls, call.IsSend)
    {last : Call} (hlast : last.IsSend) {value? : Option Value} {left : Connection}
    (hok : perform last (afterAll calls (ofEndpoint config endpoint)) = .ok value? left) :
    ∃ added, List.Forall₂ (Contributes config.writeBuffer)
        (log calls (ofEndpoint config endpoint)) added ∧
      left.outbound.sink.written =
        endpoint.sink.written ++ added.flatten ++ Command.encodeAll last.commands ∧
      ((∀ entry ∈ log calls (ofEndpoint config endpoint), entry.succeeded = false →
          (Command.encodeAll entry.1.commands).length < config.writeBuffer) →
        ∃ kept : List Call, kept.Sublist calls ∧
          (((log calls (ofEndpoint config endpoint)).filter (·.succeeded)).map (·.1)).Sublist
            kept ∧
          left.outbound.sink.written = endpoint.sink.written ++
            Command.encodeAll ((kept ++ [last]).flatMap Call.commands)) := by
  have hready : (ofEndpoint config endpoint).Ready config.writeBuffer := ⟨rfl, rfl⟩
  have hstart : (ofEndpoint config endpoint).outbound.output = endpoint.sink.written :=
    List.append_nil _
  obtain ⟨added, hadded, houtput, hready⟩ := exists_contributions hroom hsends hready
  have hwritten : left.outbound.sink.written =
      endpoint.sink.written ++ added.flatten ++ Command.encodeAll last.commands := by
    rw [← hstart, ← houtput]
    exact written_of_perform hroom hready hlast hok
  refine ⟨added, hadded, hwritten, fun hshort => ?_⟩
  obtain ⟨kept, hkept, hsucceeded, hbytes⟩ := exists_kept hadded hshort
  rw [map_fst_log] at hkept
  refine ⟨kept, hkept, hsucceeded, ?_⟩
  rw [hwritten, hbytes, List.flatMap_append, List.flatMap_singleton, Command.encodeAll_append,
    List.append_assoc]

/-- A command without arguments. -/
def ping : Command := .named (ascii "PING".toList)

/-- A peer that fails the first write and then takes everything. -/
def stalled : Endpoint where
  sink := { acceptances := [.fault ⟨.other "TimedOut", "late"⟩] }

/-- A command that was held back when its call failed goes out whole, in front of the
next. -/
theorem written_stalled :
    (log [.send ping] (ofEndpoint { writeBuffer := 16 } stalled)).map (·.succeeded) = [false] ∧
      ∃ left kept, perform (.send ping)
          (afterAll [.send ping] (ofEndpoint { writeBuffer := 16 } stalled)) = .ok none left ∧
        left.outbound.sink.written = Command.encodeAll [ping, ping] ∧
        kept.Sublist [.send ping] ∧
        left.outbound.sink.written =
          Command.encodeAll ((kept ++ [.send ping]).flatMap Call.commands) := by
  have hsends : ∀ call ∈ [Call.send ping], call.IsSend := by decide
  have hshort : ∀ entry ∈ log [.send ping] (ofEndpoint { writeBuffer := 16 } stalled),
      entry.succeeded = false → (Command.encodeAll entry.1.commands).length < 16 := by
    intro entry hentry _
    obtain rfl := List.mem_singleton.1 hentry
    decide
  have hok : perform (.send ping)
      (afterAll [.send ping] (ofEndpoint { writeBuffer := 16 } stalled)) = .ok none _ := rfl
  obtain ⟨added, -, -, hwhole⟩ :=
    written_wholeCommands (by decide : 1 ≤ 16) hsends (by decide) hok
  obtain ⟨kept, hkept, -, hwritten⟩ := hwhole hshort
  exact ⟨rfl, _, kept, hok, rfl, hkept, hwritten⟩

/-- A peer that takes three bytes, fails a write and then takes everything. -/
def choked : Endpoint where
  sink := { acceptances := [.accept 3, .fault ⟨.other "TimedOut", "late"⟩] }

/-- A command that does not fit in the buffer is broken off where its write fails, and
the next one is sent behind it all the same.  What was written is then not made of
whole commands. -/
theorem written_choked :
    ∃ left, perform (.send ping)
        (afterAll [.send ping] (ofEndpoint { writeBuffer := 4 } choked)) = .ok none left ∧
      left.outbound.sink.written = ascii "*1\r*1\r\n$4\r\nPING\r\n".toList ∧
      ∀ sent : List Command, sent.Sublist [ping, ping] →
        left.outbound.sink.written ≠ Command.encodeAll sent := by
  have hwritten : ∀ sent ∈ [ping, ping].sublists,
      ascii "*1\r*1\r\n$4\r\nPING\r\n".toList ≠ Command.encodeAll sent := by decide
  exact ⟨_, rfl, rfl, fun sent hsent => hwritten sent (List.mem_sublists.2 hsent)⟩

end Connection
end RespCodec
