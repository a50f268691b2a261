/-
# Bytes that arrive over time

Bytes from a peer come in deliveries.  A delivery is a chunk of bytes or a
fault; a chunk of no bytes says that nothing is there for the moment.  What is
still to come is a script of deliveries, and after its end nothing comes any
more.

`Inbound` reads such a script through a buffer: one delivery is taken each time
that the buffer is empty and bytes are wanted.  How patient a read is depends on
what is read:

| read | an interruption | a delivery of no bytes |
| --- | --- | --- |
| `fill` | is reported | leaves the buffer empty |
| one byte | is repeated, then one more `fill` if nothing came | ends the input at the second |
| a span | is repeated | ends the input |

A fault takes no byte with it, and bytes that a failed span had taken are gone.
How a script is cut to the capacity of the buffer changes none of its bytes, as
long as there is room for one (`Inbound.bytes_ofScript`).
-/

import RespCodec.Source.Basic

namespace RespCodec

/-- One thing that the stream of a peer does when it is read. -/
inductive Delivery where
  | chunk (bytes : Bytes)
  | fault (fault : Fault)
  deriving DecidableEq

/-- Bytes in pieces of at most `capacity`, and in one piece if there are none or
the capacity is zero. -/
def pieces (capacity : Nat) (bytes : Bytes) : List Bytes :=
  if capacity = 0 ∨ bytes.drop capacity = [] then [bytes]
  else bytes.take capacity :: pieces capacity (bytes.drop capacity)
termination_by bytes.length
decreasing_by
  rename_i h
  have : bytes ≠ [] := fun e => h (.inr (by simp [e]))
  have := List.length_pos_iff.2 this
  rw [List.length_drop]
  omega

/-- Pieces joined again are what was taken apart. -/
theorem flatten_pieces (capacity : Nat) (bytes : Bytes) :
    (pieces capacity bytes).flatten = bytes := by
  fun_induction pieces capacity bytes with
  | case1 => simp
  | case2 bytes _ ih => simp [ih]

/-- Bytes that fit are one piece. -/
theorem pieces_of_length_le {capacity : Nat} {bytes : Bytes} (h : bytes.length ≤ capacity) :
    pieces capacity bytes = [bytes] := by
  rw [pieces, if_pos (.inr (List.drop_eq_nil_of_le h))]

namespace Delivery

/-- A chunk that no read can take whole comes in several deliveries. -/
def split (capacity : Nat) : Delivery → List Delivery
  | chunk bytes => (pieces capacity bytes).map chunk
  | fault f => [fault f]

/-- How many bytes the delivery brings. -/
def size : Delivery → Nat
  | chunk bytes => bytes.length
  | fault _ => 0

/-- The bytes that the delivery brings. -/
def bytes : Delivery → Bytes
  | chunk bytes => bytes
  | fault _ => []

/-- The size of a delivery is the number of its bytes, which is none for a fault. -/
@[simp] theorem length_bytes (delivery : Delivery) : delivery.bytes.length = delivery.size := by
  cases delivery <;> rfl

/-- Splitting a delivery keeps its bytes. -/
theorem flatMap_bytes_split (capacity : Nat) (delivery : Delivery) :
    (delivery.split capacity).flatMap (·.bytes) = delivery.bytes := by
  cases delivery with
  | chunk bytes => simp [split, Delivery.bytes, List.flatMap_map, flatten_pieces]
  | fault f => rfl

/-- A delivery that fits is not split. -/
theorem split_of_size_le {capacity : Nat} {delivery : Delivery} (h : delivery.size ≤ capacity) :
    delivery.split capacity = [delivery] := by
  cases delivery with
  | chunk bytes =>
    rw [split, pieces_of_length_le h]
    rfl
  | fault f => rfl

end Delivery

/-- A buffered input: what was read ahead, and the deliveries still to come. -/
structure Inbound where
  buffer : Bytes
  script : List Delivery
  deriving DecidableEq

namespace Inbound

/-- An empty buffer of the given capacity in front of a script.  A buffer with no
room at all never gets past the first delivery that brings bytes: however often
it is filled, it takes none of them. -/
def ofScript (capacity : Nat) (script : List Delivery) : Inbound :=
  if capacity = 0 then ⟨[], script.takeWhile (·.size == 0)⟩
  else ⟨[], script.flatMap (·.split capacity)⟩

/-- How many bytes are in the buffer or still to come. -/
def size (inbound : Inbound) : Nat :=
  inbound.script.foldr (·.size + ·) inbound.buffer.length

/-- The bytes in the buffer and still to come. -/
def bytes (inbound : Inbound) : Bytes :=
  inbound.buffer ++ inbound.script.flatMap (·.bytes)

/-- The size of an input is the number of its bytes. -/
theorem length_bytes (inbound : Inbound) : inbound.bytes.length = inbound.size := by
  obtain ⟨buffer, script⟩ := inbound
  show (buffer ++ script.flatMap (·.bytes)).length = script.foldr (·.size + ·) buffer.length
  induction script with
  | nil => simp
  | cons delivery script ih =>
    rw [List.foldr_cons, ← ih]
    simp
    omega

/-- Through a buffer with any room, an input brings the bytes of its script. -/
theorem bytes_ofScript {capacity : Nat} (h : 0 < capacity) (script : List Delivery) :
    (ofScript capacity script).bytes = script.flatMap (·.bytes) := by
  rw [ofScript, if_neg (Nat.pos_iff_ne_zero.1 h)]
  show (script.flatMap (·.split capacity)).flatMap (·.bytes) = _
  rw [List.flatMap_assoc]
  simp only [Delivery.flatMap_bytes_split]

/-- A script of which every delivery fits is read as it is. -/
theorem ofScript_of_size_le {capacity : Nat} (h : 0 < capacity) {script : List Delivery}
    (hsize : ∀ delivery ∈ script, delivery.size ≤ capacity) :
    ofScript capacity script = ⟨[], script⟩ := by
  have hscript : script.flatMap (·.split capacity) = script := by
    induction script with
    | nil => rfl
    | cons delivery script ih =>
      rw [List.flatMap_cons, Delivery.split_of_size_le (hsize delivery List.mem_cons_self),
        ih fun d hd => hsize d (List.mem_cons_of_mem _ hd)]
      rfl
  rw [ofScript, if_neg (Nat.pos_iff_ne_zero.1 h), hscript]

/-- Nothing was read ahead and no delivery is left. -/
def isExhausted (inbound : Inbound) : Bool := inbound.buffer.isEmpty && inbound.script.isEmpty

/-- Take one delivery if the buffer is empty. -/
def fill : EStateM StreamError Inbound Unit
  | ⟨[], .chunk bytes :: script⟩ => .ok () ⟨bytes, script⟩
  | ⟨[], .fault f :: script⟩ => .error (.fault f) ⟨[], script⟩
  | inbound => .ok () inbound

/-- Take deliveries up to the first that is no interruption. -/
def awaitDelivery : List Delivery → EStateM.Result StreamError Inbound Unit
  | [] => .ok () ⟨[], []⟩
  | .chunk bytes :: script => .ok () ⟨bytes, script⟩
  | .fault f :: script =>
    if f.isInterruption then awaitDelivery script else .error (.fault f) ⟨[], script⟩

/-- Fill an empty buffer, and start over at every interruption. -/
def fillPatiently : EStateM StreamError Inbound Unit
  | ⟨[], script⟩ => awaitDelivery script
  | inbound => .ok () inbound

/-- The first byte of the buffer. -/
def takeBuffered : EStateM StreamError Inbound UInt8
  | ⟨[], script⟩ => .error .endOfStream ⟨[], script⟩
  | ⟨b :: rest, script⟩ => .ok b ⟨rest, script⟩

/-- Take one byte: fill patiently, fill once more, and take what is there. -/
def takeByte : EStateM StreamError Inbound UInt8 := do
  fillPatiently
  fill
  takeBuffered

/-- Take the rest of a span from a buffer and the deliveries behind it. -/
def spanFrom : List Delivery → Span → Bytes → EStateM.Result StreamError Inbound Bytes
  | script, span, buffer =>
    let n := span.extent buffer
    let taken := buffer.take n
    if taken.length = n then .ok taken ⟨buffer.drop n, script⟩
    else
      match script with
      | [] => .error span.cutShort ⟨[], []⟩
      | .chunk [] :: script => .error span.cutShort ⟨[], script⟩
      | .chunk (b :: bytes) :: script =>
        match spanFrom script (span.after taken.length) (b :: bytes) with
        | .ok more inbound => .ok (taken ++ more) inbound
        | .error e inbound => .error e inbound
      | .fault f :: script =>
        if f.isInterruption then
          match spanFrom script (span.after taken.length) [] with
          | .ok more inbound => .ok (taken ++ more) inbound
          | .error e inbound => .error e inbound
        else .error (.fault f) ⟨[], script⟩
termination_by structural script => script

/-- Take a span, however many deliveries it spreads over. -/
def takeSpan (span : Span) : EStateM StreamError Inbound Bytes := fun inbound =>
  spanFrom inbound.script span inbound.buffer

end Inbound

/-- A buffered input gives the bytes of its buffer, then those delivered. -/
instance : ByteSource Inbound where
  size := Inbound.size
  byte := Inbound.takeByte
  span := Inbound.takeSpan

end RespCodec
