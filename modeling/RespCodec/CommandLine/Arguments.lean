/-
# The command line: what it asks for

    [--max-depth N] decode [-i|--input FILE]
    [--max-depth N] encode ARGS...
    [--max-depth N] send [-s|--server ADDRESS] ARGS...
    --version | -V

What a parser makes of a line is an `Invocation`: something to be performed, or an answer
that the parser gives by itself, as it does to a line that makes no sense.  Which parser
there is, is left open by what a run does with its result (`RespCodec.CommandLine.Run`).

`Invocation.ofArgs` is one for lines like those above.  Arguments are taken one by one,
from left to right, and the first that is out of place makes the whole line a misuse.
These rules hold throughout:

* the value of an option stands behind `=`, or is the next argument, which then
  must not look like an option; that of a short option may follow at once;
* an argument looks like an option if it starts with a hyphen and goes on;
* an option is given at most once;
* `--` is dropped, and what follows it is taken as it stands;
* texts are UTF-8; the name of a file may be any bytes, but not none.

It has no texts of help to show, so it is of no use for lines that ask for help.
-/

import RespCodec.Bytes
import RespCodec.Decimal

namespace RespCodec

/-- The name under which the program tells its version. -/
def programName : List Char := "kvwire-cli".toList

/-- The version of the library. -/
def version : List Char := "0.1.0".toList

namespace CommandLine

/-- A text on lines of its own, as bytes. -/
def printedLine (text : List Char) : Bytes := ascii (text ++ ['\n'])

/-- What is to be done. -/
inductive Action where
  /-- Print the values in a capture: a file, or what is piped in. -/
  | decode (file : Option Bytes)
  /-- Print a command as it goes over the wire. -/
  | encode (args : List Bytes)
  /-- Send a command to a server and print the reply. -/
  | send (server : Bytes) (args : List Bytes)
  deriving DecidableEq

/-- What a parser makes of a command line. -/
inductive Invocation where
  /-- The line is answered by the parser, and there is nothing left to do. -/
  | answered (printed : Bytes) (exitCode : Nat)
  | perform (maxDepth : Nat) (action : Action)
  deriving DecidableEq

/-- A parser of command lines. -/
abbrev Parser := List Bytes → Invocation

/-- The answer to a line that makes no sense: nothing on the output, and a code of its own. -/
def Invocation.misuse : Invocation := .answered [] 2

/-- The answer to a line that asks for the version. -/
def Invocation.version : Invocation :=
  .answered (printedLine (programName ++ ' ' :: RespCodec.version)) 0

/-- The levels of nesting allowed where the line says nothing. -/
def defaultMaxDepth : Nat := 128

/-- Where commands are sent if the line says nothing. -/
def defaultServer : Bytes := ascii "127.0.0.1:6379".toList

/-- What the line starts with, behind `--max-depth`. -/
inductive Verb where
  | decode
  | encode
  | send
  deriving DecidableEq

/-- The verb that a word is. -/
def Verb.ofName? (name : Bytes) : Option Verb :=
  if name = ascii "decode".toList then some .decode
  else if name = ascii "encode".toList then some .encode
  else if name = ascii "send".toList then some .send
  else none

/-- An option that takes a value. -/
inductive OptionName where
  | maxDepth
  | input
  | server
  deriving DecidableEq

namespace OptionName

/-- The long name of an option. -/
def long : OptionName → List Char
  | maxDepth => "--max-depth".toList
  | input => "--input".toList
  | server => "--server".toList

/-- The short name of an option that has one. -/
def short? : OptionName → Option (List Char)
  | maxDepth => none
  | input => some "-i".toList
  | server => some "-s".toList

end OptionName

/-- What stands behind `head` in an argument that starts with it. -/
def behind? (head : List Char) (arg : Bytes) : Option Bytes :=
  if (ascii head).isPrefixOf arg then some (arg.drop head.length) else none

/-- How an argument names an option. -/
inductive Mention where
  /-- The value is the next argument. -/
  | alone
  | withValue (value : Bytes)

/-- What stands behind the short name of an option is its value, an equals
sign in between left out. -/
def Mention.ofAttached : Bytes → Mention
  | [] => .alone
  | b :: rest => if b = '='.toUInt8 then .withValue rest else .withValue (b :: rest)

/-- The way in which an argument names the option, if it does. -/
def OptionName.mention? (name : OptionName) (arg : Bytes) : Option Mention :=
  if arg = ascii name.long then some .alone
  else
    ((behind? (name.long ++ ['=']) arg).map .withValue).or
      (name.short?.bind fun short => (behind? short arg).map .ofAttached)

/-- The argument starts with a hyphen and goes on. -/
def looksLikeOption : Bytes → Bool
  | b :: _ :: _ => b == '-'.toUInt8
  | _ => false

/-- The argument asks for the version. -/
def asksForVersion (arg : Bytes) : Bool :=
  arg == ascii "--version".toList || (behind? "-V".toList arg).isSome

/-- An unsigned 64-bit number in base ten, which may have a plus sign. -/
def unsigned? (bytes : Bytes) : Option Nat := do
  let digits := if bytes.head? = some '+'.toUInt8 then bytes.tail else bytes
  if digits.isEmpty then none
  else
    let n ← digits.foldlM (fun n b => (Decimal.digit? b).map (n * 10 + ·)) 0
    if n < UInt64.size then some n else none

/-- What the arguments up to some point have said. -/
structure Progress where
  maxDepth : Option Nat := none
  verb : Option Verb := none
  file : Option Bytes := none
  server : Option Bytes := none
  args : List Bytes := []
  /-- An option whose value is the next argument. -/
  awaiting : Option OptionName := none
  /-- All further arguments are taken as they stand. -/
  literal : Bool := false

namespace Progress

/-- The options that may stand here. -/
def options (progress : Progress) : List OptionName :=
  match progress.verb with
  | none => [.maxDepth]
  | some .decode => [.input]
  | some .encode => []
  | some .send => [.server]

/-- Give an option its value. -/
def give (progress : Progress) (name : OptionName) (value : Bytes) : Except Invocation Progress :=
  let settled := { progress with awaiting := none }
  match name with
  | .maxDepth =>
    match progress.maxDepth, unsigned? value with
    | none, some n => .ok { settled with maxDepth := some n }
    | _, _ => .error .misuse
  | .input =>
    if progress.file.isNone ∧ value ≠ [] then .ok { settled with file := some value }
    else .error .misuse
  | .server =>
    if progress.server.isNone ∧ (utf8? value).isSome then
      .ok { settled with server := some value }
    else .error .misuse

/-- Take an argument that is no option: the verb, then what the verb is about. -/
def takeWord (progress : Progress) (arg : Bytes) : Except Invocation Progress :=
  match progress.verb with
  | none =>
    match Verb.ofName? arg with
    | some verb =>
      if progress.literal then .error .misuse else .ok { progress with verb := some verb }
    | none => .error .misuse
  | some .decode => .error .misuse
  | some .encode | some .send =>
    if (utf8? arg).isSome then .ok { progress with args := progress.args ++ [arg] }
    else .error .misuse

/-- The option that an argument names, of those that may stand here. -/
def named? (progress : Progress) (arg : Bytes) : Option (OptionName × Mention) :=
  progress.options.findSome? fun name => (name.mention? arg).map fun mention => (name, mention)

/-- Take an argument that looks like an option. -/
def takeOption (progress : Progress) (arg : Bytes) : Except Invocation Progress :=
  match progress.named? arg with
  | some (name, .alone) => .ok { progress with awaiting := some name }
  | some (name, .withValue value) => progress.give name value
  | none =>
    if progress.verb.isNone ∧ asksForVersion arg then .error .version else .error .misuse

/-- Take the next argument.  The error is an answer that is settled with it. -/
def step (progress : Progress) (arg : Bytes) : Except Invocation Progress :=
  match progress.awaiting with
  | some name => if looksLikeOption arg then .error .misuse else progress.give name arg
  | none =>
    if progress.literal then progress.takeWord arg
    else if arg = ascii "--".toList then .ok { progress with literal := true }
    else if looksLikeOption arg then progress.takeOption arg
    else progress.takeWord arg

/-- What a line asks for that ends here. -/
def finish (progress : Progress) : Invocation :=
  if progress.awaiting.isSome then .misuse
  else
    let perform := Invocation.perform (progress.maxDepth.getD defaultMaxDepth)
    match progress.verb with
    | none => .misuse
    | some .decode => perform (.decode progress.file)
    | some .encode =>
      if progress.args.isEmpty then .misuse else perform (.encode progress.args)
    | some .send =>
      if progress.args.isEmpty then .misuse
      else perform (.send (progress.server.getD defaultServer) progress.args)

end Progress

/-- What the arguments ask for, by the rules above. -/
def Invocation.ofArgs : Parser := fun args =>
  match args.foldlM Progress.step {} with
  | .ok progress => progress.finish
  | .error settled => settled

end CommandLine
end RespCodec
