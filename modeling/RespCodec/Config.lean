/-
# Limits and buffer sizes

`Limits` bounds what a decoder accepts; `Config` adds what a connection needs:
how much it reads ahead, how much it holds back, and how long it waits.  A
configuration is built by settings applied to the defaults, and `validate`
refuses one that leaves no room for a level, a byte or a buffer.
-/

import RespCodec.Error

namespace RespCodec

/-- What a decoder accepts. -/
structure Limits where
  /-- How deep aggregates may nest.  Elements of an attributes unit count one level. -/
  maxDepth : Nat := 128
  /-- How long a blob or a line may be, fragments taken together. -/
  maxBlobLength : Nat := 536870912
  deriving DecidableEq

/-- The limits of a connection and the sizes it works with. -/
structure Config extends Limits where
  /-- How many bytes are read ahead at most. -/
  readBuffer : Nat := 16384
  /-- How many bytes are held back for one write at most. -/
  writeBuffer : Nat := 16384
  /-- Milliseconds to wait for a read, where zero waits for ever. -/
  readTimeout : Nat := 5000
  /-- Milliseconds to wait for a write, where zero waits for ever. -/
  writeTimeout : Nat := 5000
  deriving DecidableEq

namespace Config

/-- A configuration is usable if every limit admits something and no buffer is
empty.  The first unusable field is reported, in the order of the fields. -/
def validate (config : Config) : Except ConfigError Unit :=
  if config.maxDepth = 0 then .error .zeroDepth
  else if config.maxBlobLength = 0 then .error .zeroBlobLimit
  else if config.readBuffer = 0 ∨ config.writeBuffer = 0 then
    .error (.zeroBuffer config.readBuffer config.writeBuffer)
  else .ok ()

/-- One field to be given a value. -/
inductive Setting where
  | maxDepth (levels : Nat)
  | maxBlobLength (bytes : Nat)
  | readBuffer (bytes : Nat)
  | writeBuffer (bytes : Nat)
  | readTimeout (milliseconds : Nat)
  | writeTimeout (milliseconds : Nat)

/-- A later setting of a field replaces an earlier one. -/
def apply (config : Config) : Setting → Config
  | .maxDepth n => { config with maxDepth := n }
  | .maxBlobLength n => { config with maxBlobLength := n }
  | .readBuffer n => { config with readBuffer := n }
  | .writeBuffer n => { config with writeBuffer := n }
  | .readTimeout n => { config with readTimeout := n }
  | .writeTimeout n => { config with writeTimeout := n }

/-- The defaults with settings applied in order. -/
def ofSettings (settings : List Setting) : Config := settings.foldl apply {}

/-- A usable configuration has room for a level, a byte and both buffers. -/
theorem validate_eq_ok_iff (config : Config) :
    config.validate = .ok () ↔ 1 ≤ config.maxDepth ∧ 1 ≤ config.maxBlobLength ∧
      1 ≤ config.readBuffer ∧ 1 ≤ config.writeBuffer := by
  unfold validate
  split
  · simp; omega
  split
  · simp; omega
  split
  · simp; omega
  · simp; omega

end Config
end RespCodec
