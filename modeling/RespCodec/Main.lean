/-
# The program

Gathers what a run of the command line may read, does the run, and prints what
it printed.  There is no way out to a server from here, so a command that is to
be sent fails as it does where no network can be reached.
-/

import RespCodec.CommandLine.Run

namespace RespCodec
namespace Main

/-- All that is piped in, behind `read`. -/
partial def readAll (stream : IO.FS.Stream) (read : ByteArray) : IO ByteArray := do
  let chunk ← stream.read 65536
  if chunk.isEmpty then return read else readAll stream (read ++ chunk)

/-- The bytes of a file, or a fault where there are none to be had. -/
def readFile (path : String) : IO (Except StreamError Bytes) := do
  match ← (IO.FS.readBinFile path).toBaseIO with
  | .ok bytes => return .ok bytes.toList
  | .error e => return .error (.fault ⟨.other "File", toString e⟩)

/-- A host that has read what the line asks for. -/
def hostFor (args : List Bytes) : IO CommandLine.Host := do
  let unreachable : Except StreamError Endpoint :=
    .error (.fault ⟨.other "NetworkUnreachable", "no network"⟩)
  let mut host : CommandLine.Host := {
    input := []
    file := fun _ => .ok []
    connect := fun _ => unreachable }
  match CommandLine.Invocation.ofArgs args with
  | .perform _ (.decode none) =>
    host := { host with input := (← readAll (← IO.getStdin) .empty).toList }
  | .perform _ (.decode (some file)) =>
    let found ← readFile ((utf8? file).getD "")
    host := { host with file := fun _ => found }
  | _ => pure ()
  return host

end Main
end RespCodec

def main (args : List String) : IO UInt32 := do
  let args := args.map fun arg => arg.toUTF8.toList
  let outcome := RespCodec.CommandLine.run (← RespCodec.Main.hostFor args) args
  let out ← IO.getStdout
  out.write ⟨outcome.printed.toArray⟩
  out.flush
  return outcome.exitCode.toUInt32
