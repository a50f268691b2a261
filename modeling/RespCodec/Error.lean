/-
# What can go wrong

Two classes of failure leave the codec.  A stream error says that bytes could
not be read or written; it is a fault of the stream, passed on as it came, or
an end of input met too early.  A violation says that the bytes are not a
unit; after one, where the next unit starts is unknown.  Beside them stand a
connection that was given up (`Error.poisoned`) and a configuration that no
connection can work with.

`Error.message` gives the wording, `Error.isViolation` and `Error.isDisconnect`
the two questions that an owner of a connection asks.
-/

import RespCodec.Decimal
import RespCodec.Escape

namespace RespCodec

/-- Why a stream failed, in the classes that the codec tells apart.  Every
other class is kept by its name only. -/
inductive FaultKind where
  /-- The call was broken off and may be repeated. -/
  | interrupted
  | unexpectedEnd
  | connectionReset
  | connectionAborted
  | brokenPipe
  /-- A write took nothing. -/
  | writeZero
  | other (name : String)
  deriving DecidableEq

/-- The peer went away. -/
def FaultKind.isDisconnect : FaultKind → Bool
  | unexpectedEnd | connectionReset | connectionAborted | brokenPipe => true
  | _ => false

/-- A failure that a stream reports of itself. -/
structure Fault where
  kind : FaultKind
  text : String
  deriving DecidableEq

/-- The fault only asks for the call to be made again. -/
def Fault.isInterruption (fault : Fault) : Bool := fault.kind == .interrupted

/-- Bytes could not be read or written. -/
inductive StreamError where
  /-- The input ended where a byte or the rest of a line was due. -/
  | endOfStream
  /-- The input ended inside a payload of known length. -/
  | payloadCutShort
  /-- There was nothing to read where a reply was due. -/
  | nothingToRead
  /-- The stream took none of the bytes written to it. -/
  | writeRefused
  /-- The stream took none of the bytes held back for it. -/
  | drainRefused
  /-- The stream failed. -/
  | fault (fault : Fault)
  deriving DecidableEq

namespace StreamError

/-- The class of a stream error.  An input that ends is a peer that went away. -/
def kind : StreamError → FaultKind
  | endOfStream | payloadCutShort | nothingToRead => .unexpectedEnd
  | writeRefused | drainRefused => .writeZero
  | fault f => f.kind

/-- The wording of a stream error; a fault brings its own. -/
def message : StreamError → String
  | endOfStream => "stream ended mid-value"
  | payloadCutShort => "failed to fill whole buffer"
  | nothingToRead => "unexpected end of file"
  | writeRefused => "failed to write whole buffer"
  | drainRefused => "failed to write the buffered data"
  | fault f => f.text

end StreamError

/-- The bytes read are not a unit. -/
inductive Violation where
  /-- A unit opened with a byte that is no marker. -/
  | unknownMarker (found : UInt8)
  /-- A line feed without a carriage return before it. -/
  | missingCrlf
  /-- A byte that no number can hold where it stands. -/
  | unexpectedNumberByte (found : UInt8)
  | unexpectedByte (expected found : UInt8)
  /-- A number without a digit. -/
  | emptyNumber
  /-- A number outside the signed 64-bit range. -/
  | integerOverflow
  /-- A length left open where it has to be known. -/
  | unexpectedStreamedLength (marker : UInt8)
  | invalidBoolean (found : UInt8)
  /-- A streamed map that ended behind a key. -/
  | oddMapLength (elements : Nat)
  | nestingTooDeep (limit : Nat)
  | blobTooLarge (length limit : Nat)
  deriving DecidableEq

/-- A byte as it is named in a message. -/
def shownByte (b : UInt8) : String := String.ofList (escapeByte b)

/-- The wording of a violation, bytes escaped. -/
def Violation.message : Violation → String
  | unknownMarker b => "received unknown message type: " ++ shownByte b
  | missingCrlf => "received unexpected simple string message ending without CRLF"
  | unexpectedNumberByte b => "received unexpected number byte: " ++ shownByte b
  | unexpectedByte e b => "expected byte " ++ shownByte e ++ " but received " ++ shownByte b
  | emptyNumber => "received number without digits"
  | integerOverflow => "received number that overflows a 64-bit integer"
  | unexpectedStreamedLength b =>
    "received streamed length for non-streamable type " ++ shownByte b
  | invalidBoolean b => "received invalid boolean byte: " ++ shownByte b
  | oddMapLength n => "streamed map ended after " ++ Decimal.text n ++
    " elements, leaving a key without a value"
  | nestingTooDeep limit => "nesting depth exceeds limit of " ++ Decimal.text limit
  | blobTooLarge length limit =>
    "blob of " ++ Decimal.text length ++ " bytes exceeds limit of " ++ Decimal.text limit

/-- A configuration that no connection can work with. -/
inductive ConfigError where
  | zeroDepth
  | zeroBlobLimit
  | zeroBuffer (read write : Nat)
  deriving DecidableEq

/-- The wording of a configuration error. -/
def ConfigError.message : ConfigError → String
  | zeroDepth => "max_depth must be at least 1"
  | zeroBlobLimit => "max_blob_len must be at least 1"
  | zeroBuffer read write => "buffer sizes must be non-zero (read " ++ Decimal.text read ++
    ", write " ++ Decimal.text write ++ ")"

/-- Every way in which the codec fails. -/
inductive Error where
  | stream (error : StreamError)
  | violation (violation : Violation)
  /-- An earlier read failed inside a value, so that no position is known. -/
  | poisoned
  | config (error : ConfigError)
  deriving DecidableEq

namespace Error

/-- The wording of an error: its class, then what went wrong. -/
def message : Error → String
  | stream e => "IO error: " ++ e.message
  | violation v => "Protocol violation: " ++ v.message
  | poisoned => "Connection poisoned by a read that failed mid-value"
  | config e => "Configuration error: " ++ e.message

/-- The position in the stream can no longer be trusted. -/
def isViolation : Error → Bool
  | violation _ | poisoned => true
  | _ => false

/-- The peer went away. -/
def isDisconnect : Error → Bool
  | stream e => e.kind.isDisconnect
  | _ => false

end Error
end RespCodec
