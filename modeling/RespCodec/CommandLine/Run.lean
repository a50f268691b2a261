/-
# The command line: what it does

A run hands its arguments to a parser.  What the parser answers by itself is the outcome;
otherwise the run reads what it was asked to read from its host, and results in what it
prints and in an exit code, `0` for success and `1` for a failure.  An unusable
configuration fails before anything else.  Values of a capture that were printed before a
failure stay printed.

The parser is a parameter (`runWith`), so nothing here depends on how lines are spelled.
`run` is the run with the parser of `RespCodec.CommandLine.Arguments`.
-/

import RespCodec.Capture
import RespCodec.CommandLine.Arguments
import RespCodec.Connection

namespace RespCodec

namespace CommandLine

/-- What surrounds a run. -/
structure Host where
  /-- What is piped in. -/
  input : Bytes
  /-- What a file holds, by its name. -/
  file : Bytes → Except StreamError Bytes
  /-- Reach a server by its address. -/
  connect : Bytes → Except StreamError Endpoint

/-- What a run has done. -/
structure Outcome where
  /-- What went to the output, and nothing else did. -/
  printed : Bytes
  exitCode : Nat
  /-- What a server was sent. -/
  sent : Bytes := []
  deriving DecidableEq

/-- A run that failed without a word on its output. -/
def Outcome.failed : Outcome := ⟨[], 1, []⟩

/-- Print the values in a capture. -/
def printCapture (limits : Limits) (bytes : Bytes) : Outcome :=
  let capture := Capture.ofBytes limits bytes
  ⟨ascii capture.transcript, if capture.failure.isNone then 0 else 1, []⟩

/-- Send a command over an endpoint and print the reply. -/
def exchange (config : Config) (endpoint : Endpoint) (command : Command) : Outcome :=
  match Connection.establish config endpoint with
  | .error _ => .failed
  | .ok connection =>
    match connection.request command with
    | .ok reply connection =>
      ⟨printedLine reply.display, 0, connection.outbound.sink.written⟩
    | .error _ connection => ⟨[], 1, connection.outbound.sink.written⟩

/-- Act under a usable configuration. -/
def perform (host : Host) (config : Config) : Action → Outcome
  | .decode none => printCapture config.toLimits host.input
  | .decode (some file) =>
    match host.file file with
    | .ok bytes => printCapture config.toLimits bytes
    | .error _ => .failed
  | .encode args => ⟨Command.encode ⟨args⟩, 0, []⟩
  | .send server args =>
    match host.connect server with
    | .ok endpoint => exchange config endpoint ⟨args⟩
    | .error _ => .failed

/-- Do what a parser makes of a line. -/
def runWith (parse : Parser) (host : Host) (args : List Bytes) : Outcome :=
  match parse args with
  | .answered printed exitCode => ⟨printed, exitCode, []⟩
  | .perform maxDepth action =>
    let config : Config := { maxDepth }
    match config.validate with
    | .ok () => perform host config action
    | .error _ => .failed

/-- The run with the parser at hand. -/
def run (host : Host) (args : List Bytes) : Outcome := runWith Invocation.ofArgs host args

end CommandLine
end RespCodec
