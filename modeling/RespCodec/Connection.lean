/-
# Connections

A connection pairs the two directions of one stream: commands go out through a
buffer and are flushed, replies are decoded from what comes in.  Commands are
encoded in a scratch buffer, which all calls share and each clears first.

A read that fails inside a reply leaves the position in the stream unknown.
The connection is then poisoned, for good: every later call fails and touches
neither direction.  A read that fails before the first byte of a reply leaves
the connection as it was, and so does a write that fails.
-/

import RespCodec.Command
import RespCodec.Decoder.Unit
import RespCodec.Sink.Buffered
import RespCodec.Source.Inbound

namespace RespCodec

/-- The direction towards the peer: a buffered sink, and where the bytes for it are
put together. -/
structure Outbound extends BufferedSink where
  scratch : Bytes := []
  deriving DecidableEq

namespace Outbound

/-- Forget what was put together before. -/
def clear (outbound : Outbound) : Outbound := { outbound with scratch := [] }

/-- Put one more command behind those in the scratch buffer. -/
def encode (outbound : Outbound) (command : Command) : Outbound :=
  { outbound with scratch := command.encodeOnto outbound.scratch }

end Outbound

/-- A connection to a peer. -/
structure Connection where
  limits : Limits
  inbound : Inbound
  outbound : Outbound
  /-- A read has failed inside a reply. -/
  poisoned : Bool := false
  /-- The peer, for whoever reports about the connection. -/
  peer : String := "unknown"

/-- The two directions of a stream before a connection is made of them. -/
structure Endpoint where
  /-- What is going to arrive. -/
  deliveries : List Delivery := []
  /-- Where bytes go. -/
  sink : Sink := {}

namespace Connection

/-- A connection over an endpoint, with the limits and buffers of a configuration. -/
def ofEndpoint (config : Config) (endpoint : Endpoint) : Connection where
  limits := config.toLimits
  inbound := .ofScript config.readBuffer endpoint.deliveries
  outbound := { capacity := config.writeBuffer, sink := endpoint.sink }

/-- A connection over an endpoint, if the configuration is usable. -/
def establish (config : Config) (endpoint : Endpoint) : Except Error Connection :=
  match config.validate with
  | .ok () => .ok (ofEndpoint config endpoint)
  | .error e => .error (.config e)

/-- Do something with the buffered sink. -/
def onOutbound {α : Type} (action : EStateM StreamError BufferedSink α) :
    EStateM Error Connection α := fun connection =>
  match action connection.outbound.toBufferedSink with
  | .ok a sink =>
    .ok a { connection with outbound := { connection.outbound with toBufferedSink := sink } }
  | .error e sink =>
    .error (.stream e)
      { connection with outbound := { connection.outbound with toBufferedSink := sink } }

/-- Do something with the inbound direction. -/
def onInbound {α : Type} (action : EStateM StreamError Inbound α) :
    EStateM Error Connection α := fun connection =>
  match action connection.inbound with
  | .ok a inbound => .ok a { connection with inbound }
  | .error e inbound => .error (.stream e) { connection with inbound }

/-- Refuse to go on with a poisoned connection. -/
def ensureHealthy : EStateM Error Connection Unit := do
  if (← get).poisoned then throw .poisoned

/-- Put commands together in the scratch buffer, and nothing else. -/
def prepare (commands : List Command) : EStateM Error Connection Unit :=
  modify fun connection =>
    { connection with outbound := commands.foldl Outbound.encode connection.outbound.clear }

/-- Encode commands, write them at once and flush. -/
def transmit (commands : List Command) : EStateM Error Connection Unit := do
  ensureHealthy
  prepare commands
  onOutbound (BufferedSink.writeAll (← get).outbound.scratch)
  onOutbound BufferedSink.flush

/-- Send one command. -/
def send (command : Command) : EStateM Error Connection Unit := transmit [command]

/-- Send commands with one flush. -/
def sendPipeline (commands : List Command) : EStateM Error Connection Unit := transmit commands

/-- Decode a reply of which some bytes are there.  A failure poisons. -/
def decodeReply : EStateM Error Connection Value := fun connection =>
  match decode connection.limits connection.inbound with
  | .ok value inbound => .ok value { connection with inbound }
  | .error e inbound => .error e { connection with inbound, poisoned := true }

/-- Read the next reply. -/
def receive : EStateM Error Connection Value := do
  ensureHealthy
  onInbound Inbound.fill
  if (← get).inbound.buffer.isEmpty then throw (.stream .nothingToRead)
  decodeReply

/-- Send one command and read its reply. -/
def request (command : Command) : EStateM Error Connection Value := do
  send command
  receive

/-- What an owner can ask of a connection. -/
inductive Call where
  | send (command : Command)
  | sendPipeline (commands : List Command)
  | receive
  | request (command : Command)
  deriving DecidableEq

/-- Do what is asked.  A call that reads results in a value, one that only
sends in none. -/
def perform : Call → EStateM Error Connection (Option Value)
  | .send command => do
    send command
    return none
  | .sendPipeline commands => do
    sendPipeline commands
    return none
  | .receive => some <$> receive
  | .request command => some <$> request command

/-- Give the connection up.  Bytes held back are sent first. -/
def close : EStateM Error Connection Unit := onOutbound BufferedSink.close

end Connection
end RespCodec
