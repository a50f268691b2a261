/-
# Values as printed

A value is shown as a client shell shows a reply.  Scalars take one line;
their text is escaped, so a payload cannot add a line.  Aggregates put one
element on a line behind its number, and lines inside an element are indented
by the width of that number's label:

| data | shown as |
| --- | --- |
| null | `(nil)`, or `(end of stream)` for that kind |
| number | `(integer) n`, or `(true)` and `(false)` for a boolean |
| text | bare for a simple string, behind `(error)`, `(double)` or `(big number)` for these kinds, quoted otherwise |
| no elements | `(empty array)`, with the name of the kind |
| elements | `1) first`, `2) second` and so on |
| elements of a map | `1# key => value` and so on |

The attributes of a value are not part of its display.
-/

import RespCodec.Decimal
import RespCodec.Escape
import RespCodec.Value.Basic

namespace RespCodec

/-- A line feed and the indentation of the line after it. -/
def lineBreak (indent : Nat) : List Char := '\n' :: List.replicate indent ' '

/-- What an aggregate of a kind is called where it is empty. -/
def Kind.aggregateName : Kind → List Char
  | .set => "set".toList
  | .push => "push".toList
  | .map => "map".toList
  | .attributes => "attributes".toList
  | _ => "array".toList

/-- String data behind the word that its kind calls for. -/
def displayText (kind : Kind) (bytes : Bytes) : List Char :=
  match kind with
  | .simpleError | .blobError => "(error) ".toList ++ escape bytes
  | .double => "(double) ".toList ++ escape bytes
  | .bigNumber => "(big number) ".toList ++ escape bytes
  | .simpleString => escape bytes
  | _ => '"' :: escape bytes ++ ['"']

/-- A number as a number, or as the truth value that it stands for. -/
def displayInt (kind : Kind) (n : Int64) : List Char :=
  if kind = .boolean then (if n = 0 then "(false)".toList else "(true)".toList)
  else "(integer) ".toList ++ Decimal.signed n.toInt

/-- What stands for a null. -/
def displayNull (kind : Kind) : List Char :=
  if kind = .endOfStream then "(end of stream)".toList else "(nil)".toList

/-- The label of element `i`, counted from zero. -/
def itemLabel (i : Nat) : List Char := Decimal.digits (i + 1) ++ [')', ' ']

/-- The label of entry `i`, counted from zero. -/
def entryLabel (i : Nat) : List Char := Decimal.digits (i + 1) ++ ['#', ' ']

/-- What stands before the label of element or entry `i`: nothing for the first. -/
def labelBreak (indent i : Nat) : List Char := if i = 0 then [] else lineBreak indent

mutual

/-- A value whose first line starts at column `indent`. -/
def Value.displayAt (indent : Nat) : Value → List Char
  | ⟨kind, data, _⟩ => Data.displayAt indent kind data
termination_by structural v => v

def Data.displayAt (indent : Nat) (kind : Kind) : Data Value → List Char
  | .null => displayNull kind
  | .int n => displayInt kind n
  | .str bytes => displayText kind bytes
  | .elements items =>
    if items.isEmpty then "(empty ".toList ++ kind.aggregateName ++ [')']
    else if kind.isMap then displayEntries indent 0 items
    else displayItems indent 0 items
termination_by structural d => d

/-- Elements from number `i` on, each behind its label. -/
def displayItems (indent i : Nat) : List Value → List Char
  | [] => []
  | v :: vs =>
    labelBreak indent i ++ itemLabel i ++ v.displayAt (indent + (itemLabel i).length) ++
      displayItems indent (i + 1) vs
termination_by structural vs => vs

/-- Entries from number `i` on.  A key without a value is shown alone. -/
def displayEntries (indent i : Nat) : List Value → List Char
  | [] => []
  | [k] => labelBreak indent i ++ entryLabel i ++ k.displayAt (indent + (entryLabel i).length)
  | k :: v :: rest =>
    labelBreak indent i ++ entryLabel i ++ k.displayAt (indent + (entryLabel i).length) ++
      " => ".toList ++ v.displayAt (indent + (entryLabel i).length) ++
      displayEntries indent (i + 1) rest
termination_by structural vs => vs

end

/-- A value as it is printed, without a final line feed. -/
def Value.display (value : Value) : List Char := value.displayAt 0

end RespCodec
