/-
# When a connection is poisoned

A call that receives first waits for a byte.  As long as none is there it can fail and
be made again, since nothing was taken.  Once there is one, a reply has begun, and
if decoding it fails nobody knows where the next reply starts.  That, and nothing else,
poisons a connection (`Connection.BreaksOff`).

| call | comes to wait for a reply (`Connection.Awaits`) |
| --- | --- |
| `send`, `sendPipeline` | never |
| `receive` | on a healthy connection |
| `request` | once its command is sent |

A call that does not come to it leaves the inbound direction as it is.  A poisoned
connection stays poisoned, so it was poisoned where one of the calls broke off
(`Connection.poisoned_afterAll_iff`).
-/

import RespCodec.Proofs.Synchrony

namespace RespCodec
namespace Connection

/-- What a call comes to wait for a reply on. -/
inductive Awaits (connection : Connection) : Call → Connection → Prop
  | receive (h : connection.poisoned = false) : Awaits connection .receive connection
  | request {command : Command} {sent : Connection} (h : send command connection = .ok () sent) :
    Awaits connection (.request command) sent

/-- Bytes of a reply are there. -/
structure Begins (connection : Connection) (inbound : Inbound) : Prop where
  fill : Inbound.fill connection.inbound = .ok () inbound
  buffer : inbound.buffer ≠ []

/-- The call fails inside a reply. -/
def BreaksOff (connection : Connection) (call : Call) (e : Error) : Prop :=
  ∃ waiting inbound left, Awaits connection call waiting ∧ Begins waiting inbound ∧
    decode waiting.limits inbound = .error e left

variable {connection waiting : Connection} {call : Call}

/-- A poisoned connection sends nothing, so one that has sent was healthy. -/
theorem healthy_of_transmit {commands : List Command} {sent : Connection}
    (h : transmit commands connection = .ok () sent) : connection.poisoned = false := by
  refine Bool.eq_false_iff.2 fun hpoisoned => ?_
  rw [transmit_of_poisoned hpoisoned] at h
  cases h

/-- A call that waits for a reply has done nothing but send by then. -/
theorem Awaits.exists_outbound (h : Awaits connection call waiting) :
    connection.poisoned = false ∧ ∃ outbound, waiting = { connection with outbound } := by
  cases h with
  | receive hhealthy => exact ⟨hhealthy, connection.outbound, rfl⟩
  | @request command _ h =>
    refine ⟨healthy_of_transmit h, ?_⟩
    obtain ⟨outbound, hsent | ⟨e, hsent⟩⟩ := exists_outbound_transmit [command] connection
    · rw [send, hsent] at h
      cases h
      exact ⟨outbound, rfl⟩
    · rw [send, hsent] at h
      cases h

/-- A call that waits for a value does so on a healthy connection. -/
theorem Awaits.healthy (h : Awaits connection call waiting) : waiting.poisoned = false := by
  obtain ⟨hhealthy, outbound, rfl⟩ := h.exists_outbound
  exact hhealthy

/-- Sending takes nothing from the input, so the value is looked for where the connection stood. -/
theorem Awaits.inbound_eq (h : Awaits connection call waiting) :
    waiting.inbound = connection.inbound := by
  obtain ⟨-, outbound, rfl⟩ := h.exists_outbound
  rfl

/-- From then on it receives. -/
theorem perform_of_awaits (h : Awaits connection call waiting) :
    perform call connection = perform .receive waiting := by
  cases h with
  | receive => rfl
  | @request command _ h =>
    simp only [perform, request, Functor.map, EStateM.map, bind, EStateM.bind, h]

/-- A call that does not come to wait for a reply leaves all but the outbound
direction as it is. -/
theorem exists_outbound_of_not_awaits (h : ∀ waiting, ¬ Awaits connection call waiting) :
    ∃ outbound, stateAfter (perform call connection) = { connection with outbound } := by
  have hsent (hsend : call.IsSend) :
      ∃ outbound, stateAfter (perform call connection) = { connection with outbound } := by
    obtain ⟨outbound, h | ⟨e, h⟩⟩ := exists_outbound_perform hsend connection
    · rw [h]
      exact ⟨outbound, rfl⟩
    · rw [h]
      exact ⟨outbound, rfl⟩
  cases call with
  | send | sendPipeline => exact hsent trivial
  | receive =>
    have hpoisoned : connection.poisoned = true :=
      Bool.not_eq_false _ ▸ fun hhealthy => h _ (.receive hhealthy)
    rw [perform_of_poisoned hpoisoned]
    exact ⟨connection.outbound, rfl⟩
  | request command =>
    obtain ⟨outbound, hsend | ⟨e, hsend⟩⟩ := exists_outbound_transmit [command] connection
    · exact absurd (.request hsend) (h _)
    · refine ⟨outbound, ?_⟩
      simp only [perform, request, send, Functor.map, EStateM.map, bind, EStateM.bind, hsend]
      rfl

/-- Where a reply has begun, it is decoded. -/
theorem receive_of_begins (hhealthy : connection.poisoned = false) {inbound : Inbound}
    (h : Begins connection inbound) :
    receive connection = decodeReply { connection with inbound } := by
  rw [receive_of_healthy hhealthy, h.fill]
  exact if_neg fun hempty => h.buffer (List.isEmpty_iff.1 hempty)

/-- Where no reply has begun, the call fails and has taken no byte. -/
theorem receive_of_not_begins (hhealthy : connection.poisoned = false)
    (h : ∀ inbound, ¬ Begins connection inbound) :
    ∃ e inbound, receive connection = .error (.stream e) { connection with inbound } ∧
      inbound.bytes = connection.inbound.bytes := by
  have hbytes := connection.inbound.bytes_fill
  rw [receive_of_healthy hhealthy]
  cases hfill : Inbound.fill connection.inbound with
  | error e inbound =>
    rw [hfill] at hbytes
    exact ⟨e, inbound, rfl, hbytes⟩
  | ok _ inbound =>
    rw [hfill] at hbytes
    -- no reply has begun, so a fill that succeeds has brought nothing
    have hempty : inbound.buffer = [] := Classical.byContradiction fun hne => h _ ⟨hfill, hne⟩
    dsimp only
    rw [hempty]
    exact ⟨.nothingToRead, inbound, rfl, hbytes⟩

/-- A call that waits and finds that no reply has begun fails, and the bytes in front
of the connection stay. -/
theorem perform_of_not_begins (hawaits : Awaits connection call waiting)
    (h : ∀ inbound, ¬ Begins waiting inbound) :
    ∃ e inbound, perform call connection = .error (.stream e) { waiting with inbound } ∧
      inbound.bytes = connection.inbound.bytes := by
  obtain ⟨e, inbound, hreceive, hbytes⟩ := receive_of_not_begins hawaits.healthy h
  refine ⟨e, inbound, ?_, hbytes.trans (congrArg _ hawaits.inbound_eq)⟩
  rw [perform_of_awaits hawaits]
  simp only [perform, Functor.map, EStateM.map, hreceive]

/-- A call that waits and finds that a reply has begun does what decoding does, and
poisons if that fails. -/
theorem perform_of_begins (hawaits : Awaits connection call waiting) {inbound : Inbound}
    (h : Begins waiting inbound) :
    perform call connection =
      match decode waiting.limits inbound with
      | .ok value inbound => .ok (some value) { waiting with inbound }
      | .error e inbound => .error e { waiting with inbound, poisoned := true } := by
  rw [perform_of_awaits hawaits]
  simp only [perform, Functor.map, EStateM.map, receive_of_begins hawaits.healthy h, decodeReply]
  cases decode waiting.limits inbound <;> rfl

/-- A call that breaks off fails as decoding does, and poisons. -/
theorem BreaksOff.perform_eq {e : Error} (h : BreaksOff connection call e) :
    connection.poisoned = false ∧
      ∃ left, perform call connection = .error e left ∧ left.poisoned = true := by
  obtain ⟨waiting, inbound, rest, hawaits, hbegins, hdecode⟩ := h
  rw [perform_of_begins hawaits hbegins, hdecode]
  exact ⟨hawaits.exists_outbound.1, _, rfl, rfl⟩

/-- Step: **a connection is poisoned behind a call if it was before or the call breaks off.**  A
call that only sends, and one that finds no reply begun, decodes nothing, and of those that
decode only the ones that fail set the flag. -/
theorem poisoned_perform_iff (call : Call) (connection : Connection) :
    (stateAfter (perform call connection)).poisoned = true ↔
      connection.poisoned = true ∨ ∃ e, BreaksOff connection call e := by
  constructor
  · intro h
    -- by how far the call comes: to wait for a reply, and then to find one begun
    by_cases hawaits : ∃ waiting, Awaits connection call waiting
    · obtain ⟨waiting, hawaits⟩ := hawaits
      by_cases hbegins : ∃ inbound, Begins waiting inbound
      · obtain ⟨inbound, hbegins⟩ := hbegins
        rw [perform_of_begins hawaits hbegins] at h
        cases hdecode : decode waiting.limits inbound with
        | error e left => exact .inr ⟨e, waiting, inbound, left, hawaits, hbegins, hdecode⟩
        | ok value left =>
          rw [hdecode] at h
          exact absurd (hawaits.healthy.symm.trans h) (by decide)
      · obtain ⟨e, inbound, hperform, -⟩ := perform_of_not_begins hawaits (not_exists.1 hbegins)
        rw [hperform] at h
        exact absurd (hawaits.healthy.symm.trans h) (by decide)
    · obtain ⟨outbound, hleft⟩ := exists_outbound_of_not_awaits (not_exists.1 hawaits)
      rw [hleft] at h
      exact .inl h
  · rintro (hpoisoned | ⟨e, hbreaks⟩)
    · rwa [perform_of_poisoned hpoisoned]
    · obtain ⟨-, left, hperform, hleft⟩ := hbreaks.perform_eq
      rwa [hperform]

/-- Run: a connection is poisoned behind calls if it was before or one of them broke off.  By
induction on the calls, from the step. -/
theorem poisoned_afterAll_iff (calls : List Call) (connection : Connection) :
    (afterAll calls connection).poisoned = true ↔
      connection.poisoned = true ∨ ∃ before call after e, calls = before ++ call :: after ∧
        BreaksOff (afterAll before connection) call e := by
  induction calls generalizing connection with
  | nil => simp [afterAll]
  | cons first calls ih =>
    rw [afterAll_cons, ih, poisoned_perform_iff]
    constructor
    · rintro ((hpoisoned | ⟨e, hbreaks⟩) | ⟨before, call, after, e, rfl, hbreaks⟩)
      · exact .inl hpoisoned
      · exact .inr ⟨[], first, calls, e, rfl, hbreaks⟩
      · exact .inr ⟨first :: before, call, after, e, rfl, hbreaks⟩
    · rintro (hpoisoned | ⟨before, call, after, e, hcalls, hbreaks⟩)
      · exact .inl (.inl hpoisoned)
      cases before with
      | nil =>
        obtain ⟨rfl, rfl⟩ := List.cons.inj hcalls
        exact .inl (.inr ⟨e, hbreaks⟩)
      | cons other before =>
        obtain ⟨rfl, rfl⟩ := List.cons.inj hcalls
        exact .inr ⟨before, call, after, e, rfl, hbreaks⟩

/-- On a poisoned connection every call is refused, and none does anything. -/
theorem performAll_of_poisoned (h : connection.poisoned = true) (calls : List Call) :
    performAll calls connection = calls.map fun _ => .error .poisoned connection := by
  induction calls with
  | nil => rfl
  | cons call calls ih =>
    rw [performAll, perform_of_poisoned h, List.map_cons]
    exact congrArg _ ih

/-- Poisoning: **a connection is poisoned where a call fails inside a reply, nowhere
else, and for good.**  A call that waits for no reply leaves the inbound direction as
it is, one that waits for a reply in vain takes no byte of it, and once the connection
is poisoned all calls are refused and none changes anything. -/
theorem poisoned_establish {config : Config} {endpoint : Endpoint} {start reached : Connection}
    (h : establish config endpoint = .ok start) (calls : List Call)
    (hreached : afterAll calls start = reached) :
    (reached.poisoned = true ↔ ∃ before call after e, calls = before ++ call :: after ∧
        BreaksOff (afterAll before start) call e) ∧
      (∀ call, (stateAfter (perform call reached)).poisoned = true ↔
        reached.poisoned = true ∨ ∃ e, BreaksOff reached call e) ∧
      (∀ call e, BreaksOff reached call e → reached.poisoned = false ∧
        ∃ left, perform call reached = .error e left ∧ left.poisoned = true) ∧
      (∀ call, (∀ waiting, ¬ Awaits reached call waiting) →
        ∃ outbound, stateAfter (perform call reached) = { reached with outbound }) ∧
      (∀ call waiting, Awaits reached call waiting → (∀ inbound, ¬ Begins waiting inbound) →
        ∃ e inbound, perform call reached = .error (.stream e) { waiting with inbound } ∧
          inbound.bytes = reached.inbound.bytes) ∧
      (reached.poisoned = true → ∀ later,
        performAll later reached = later.map (fun _ => .error .poisoned reached) ∧
          afterAll later reached = reached) := by
  -- a connection that was established starts healthy, so only a call can have poisoned it
  have hstart : start.poisoned = false := by
    unfold establish at h
    split at h
    · cases h
      rfl
    · cases h
  refine ⟨?_, ?_, ?_, ?_, ?_, ?_⟩
  · have hrun := poisoned_afterAll_iff calls start
    rwa [hreached, hstart, or_iff_right Bool.false_ne_true] at hrun
  · intro call
    exact poisoned_perform_iff call reached
  · intro call e
    exact BreaksOff.perform_eq
  · intro call
    exact exists_outbound_of_not_awaits
  · intro call waiting
    exact perform_of_not_begins
  · intro hpoisoned later
    exact ⟨performAll_of_poisoned hpoisoned later, afterAll_of_poisoned hpoisoned later⟩

/-- A fault before a reply and an empty delivery do no harm, and a fault inside the third
reply does. -/
theorem poisoned_brokenOff :
    (afterAll [.receive, .request {}, .receive, .receive] (ofEndpoint {} brokenOff)).poisoned =
        false ∧
      ∃ reached, afterAll [.receive, .request {}, .receive, .receive, .receive]
          (ofEndpoint {} brokenOff) = reached ∧ reached.poisoned = true ∧
        (∃ before call after e, [.receive, .request {}, .receive, .receive, .receive] =
          before ++ call :: after ∧
            BreaksOff (afterAll before (ofEndpoint {} brokenOff)) call e) ∧
        performAll [.receive, .send {}] reached =
          [.error .poisoned reached, .error .poisoned reached] := by
  have hestablish : establish {} brokenOff = .ok (ofEndpoint {} brokenOff) := rfl
  -- the deliveries are shorter than the buffer, so none of them is cut
  have hstart : ofEndpoint {} brokenOff = { ofEndpoint {} {} with
      inbound := ⟨[], brokenOff.deliveries⟩ } := by
    have hscript : Inbound.ofScript 16384 brokenOff.deliveries = ⟨[], brokenOff.deliveries⟩ :=
      Inbound.ofScript_of_size_le (by decide) (by decide)
    rw [ofEndpoint, hscript]
    rfl
  obtain ⟨hrun, -, -, -, -, hrefused⟩ := poisoned_establish hestablish
    [.receive, .request {}, .receive, .receive, .receive] rfl
  have hpoisoned : (afterAll [.receive, .request {}, .receive, .receive, .receive]
      (ofEndpoint {} brokenOff)).poisoned = true := by
    rw [hstart]
    rfl
  refine ⟨?_, _, rfl, hpoisoned, hrun.1 hpoisoned, (hrefused hpoisoned [.receive, .send {}]).1⟩
  rw [hstart]
  rfl

end Connection
end RespCodec
