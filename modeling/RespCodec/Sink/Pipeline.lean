/-
# Commands written to a sink

Commands can be written to a sink without a connection.  Each call is one write
of all its bytes, and never a flush, so several can be queued before one.
-/

import RespCodec.Command
import RespCodec.Sink.Basic

namespace RespCodec
namespace Sink

/-- Write one command. -/
def writeCommand (command : Command) : EStateM StreamError Sink Unit := writeAll command.encode

/-- Write commands at once. -/
def writePipeline (commands : List Command) : EStateM StreamError Sink Unit :=
  writeAll (Command.encodeAll commands)

end Sink
end RespCodec
