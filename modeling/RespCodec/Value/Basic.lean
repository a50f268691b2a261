/-
# Values

A value is a kind, the data that its unit carried and the attributes unit that
stood before it, if one did.  Maps and attributes units keep their entries as a
flat list: key, value, key, value.

A value read from the wire has data that fits its kind.  A value built by hand
need not, and every function here is total: an accessor answers `none` where
the data is of another sort, and a key without a value counts for no entry
(`pairs_flattenEntries`: entries are found again as they were put in).
-/

import RespCodec.Kind

namespace RespCodec

/-- What a unit carries, over the type of its elements. -/
inductive Data (ν : Type) where
  /-- The text of strings, errors, doubles and big numbers. -/
  | str (bytes : Bytes)
  /-- An integer, or a boolean as one or zero. -/
  | int (n : Int64)
  | null
  /-- The elements of an aggregate. -/
  | elements (items : List ν)
  deriving DecidableEq

/-- A value, with the attributes unit that stood before it. -/
structure Value where
  kind : Kind
  data : Data Value
  attributes : Option Value

/-- Keys and values in alternation. -/
def flattenEntries {ν : Type} (entries : List (ν × ν)) : List ν :=
  entries.flatMap fun entry => [entry.1, entry.2]

/-- Elements two by two.  A last one that stands alone is left out. -/
def pairs {ν : Type} : List ν → List (ν × ν)
  | k :: v :: rest => (k, v) :: pairs rest
  | _ => []

/-- Entries are found again as they were put in, keys and values in their places. -/
@[simp] theorem pairs_flattenEntries {ν : Type} (entries : List (ν × ν)) :
    pairs (flattenEntries entries) = entries := by
  induction entries with
  | nil => rfl
  | cons entry rest ih =>
    show (entry.1, entry.2) :: pairs (flattenEntries rest) = entry :: rest
    rw [ih]

namespace Value

/-- A value of any kind over any data, without attributes. -/
def ofData (kind : Kind) (data : Data Value) : Value := ⟨kind, data, none⟩

/-- Bytes of any content. -/
def blobString (bytes : Bytes) : Value := ofData .blobString (.str bytes)

/-- A line of text. -/
def simpleString (text : Bytes) : Value := ofData .simpleString (.str text)

/-- A line that reports an error. -/
def simpleError (text : Bytes) : Value := ofData .simpleError (.str text)

/-- A signed number. -/
def integer (n : Int64) : Value := ofData .integer (.int n)

/-- Truth is one, falsehood zero. -/
def boolean (b : Bool) : Value := ofData .boolean (.int (if b then 1 else 0))

/-- No value. -/
def null : Value := ofData .null .null

/-- Values in order. -/
def array (items : List Value) : Value := ofData .array (.elements items)

/-- Values of which the order does not matter; it is kept all the same. -/
def set (items : List Value) : Value := ofData .set (.elements items)

/-- Values that the peer sent unasked. -/
def push (items : List Value) : Value := ofData .push (.elements items)

/-- Keys with their values. -/
def map (entries : List (Value × Value)) : Value :=
  ofData .map (.elements (flattenEntries entries))

/-- The unit that may stand before a value and describe it. -/
def attributesUnit (entries : List (Value × Value)) : Value :=
  ofData .attributes (.elements (flattenEntries entries))

/-- The value behind the given attributes unit. -/
def withAttributes (value unit : Value) : Value := { value with attributes := some unit }

/-- The data is null, of whatever kind the value is. -/
def isNull (value : Value) : Bool :=
  match value.data with
  | .null => true
  | _ => false

/-- The kind is one of the errors. -/
def isError (value : Value) : Bool := value.kind.isError

/-- String data. -/
def bytes? (value : Value) : Option Bytes :=
  match value.data with
  | .str bytes => some bytes
  | _ => none

/-- String data that is UTF-8, as a text. -/
def text? (value : Value) : Option String := value.bytes?.bind utf8?

/-- Numeric data. -/
def int? (value : Value) : Option Int64 :=
  match value.data with
  | .int n => some n
  | _ => none

/-- Only a boolean has a truth value, whatever number it carries. -/
def bool? (value : Value) : Option Bool :=
  if value.kind = .boolean then value.int?.map (· != 0) else none

/-- The elements of an aggregate. -/
def elements? (value : Value) : Option (List Value) :=
  match value.data with
  | .elements items => some items
  | _ => none

/-- The entries of a map or an attributes unit. -/
def entries? (value : Value) : Option (List (Value × Value)) :=
  if value.kind.isMap then value.elements?.map pairs else none

/-- The text of an error, if it is UTF-8. -/
def errorText? (value : Value) : Option String :=
  if value.isError then value.text? else none

/-- A map gives the entries that it was made of. -/
@[simp] theorem entries?_map (entries : List (Value × Value)) :
    (map entries).entries? = some entries := by
  simp [map, ofData, entries?, elements?, Kind.isMap]

/-- So does an attributes unit. -/
@[simp] theorem entries?_attributesUnit (entries : List (Value × Value)) :
    (attributesUnit entries).entries? = some entries := by
  simp [attributesUnit, ofData, entries?, elements?, Kind.isMap]

end Value
end RespCodec
