/-
# How the bytes arrive does not matter

Where all deliveries bring bytes or are interruptions, an input fails only where the
list of its bytes does, in the same way.  The list and the input then stay alike step
by step, so a decoder cannot tell them apart (`Decoder.run_alike`), however often it
is called (`readings_alike`).

A script through a buffer of any size is such an input (`Inbound.brings_ofScript`):
bytes cut into chunks in any way, with interruptions between them, have the
readings of the bytes.
-/

import RespCodec.Proofs.Deliveries
import RespCodec.Proofs.Readings

namespace RespCodec
namespace Inbound

variable {α : Type}

/-- The input brings these bytes, and no delivery of it makes a read fail. -/
structure Brings (inbound : Inbound) (bytes : Bytes) : Prop where
  smooth : ∀ delivery ∈ inbound.script, delivery.IsSmooth
  bytes_eq : inbound.bytes = bytes

/-- Where no delivery is to blame, an input answers as the list does. -/
theorem Answer.alike {script : List Delivery} (hsmooth : ∀ delivery ∈ script, delivery.IsSmooth)
    {r : EStateM.Result StreamError Inbound α} {r' : EStateM.Result StreamError Bytes α}
    (h : Answer script r r') : Alike Brings r r' := by
  cases h with
  | ok h => exact .ok ⟨fun delivery hd => hsmooth delivery (h.mem hd), rfl⟩
  | error h => exact .error ⟨fun delivery hd => hsmooth delivery (h.mem hd), rfl⟩
  | broken hmem h => exact absurd (hsmooth _ hmem) h

/-- A smooth input and the list of its bytes are the same to a decoder.  They have the same
size, and each read of a byte or a span answers alike on both and leaves them related. -/
theorem brings_indistinguishable : Indistinguishable Brings where
  size h := by
    show size _ = List.length _
    rw [← h.bytes_eq, length_bytes]
  byte h := by
    rw [← h.bytes_eq]
    exact (takeByte_answer _).alike h.smooth
  span wanted h := by
    rw [← h.bytes_eq]
    exact (spanFrom_answer _ wanted _).alike h.smooth

/-- Bytes are not cut into empty pieces, so through a buffer no pause comes in that was not in the
script. -/
theorem ne_nil_of_mem_pieces {capacity : Nat} {bytes piece : Bytes} (hbytes : bytes ≠ [])
    (h : piece ∈ pieces capacity bytes) : piece ≠ [] := by
  fun_induction pieces capacity bytes with
  | case1 bytes => rwa [List.mem_singleton.1 h]
  | case2 bytes hcut ih =>
    rcases List.mem_cons.1 h with rfl | h
    · intro htake
      rcases List.take_eq_nil_iff.1 htake with hzero | hnil
      · exact hcut (.inl hzero)
      · exact hbytes hnil
    · exact ih (fun hdrop => hcut (.inr hdrop)) h

/-- Deliveries that bring bytes still do so in pieces. -/
theorem isSmooth_of_mem_split {capacity : Nat} {delivery part : Delivery}
    (hsmooth : delivery.IsSmooth) (h : part ∈ delivery.split capacity) : part.IsSmooth := by
  cases delivery with
  | chunk bytes =>
    obtain ⟨piece, hpiece, rfl⟩ := List.mem_map.1 h
    exact ne_nil_of_mem_pieces hsmooth hpiece
  | fault f => rwa [List.mem_singleton.1 h]

/-- A script without pauses and faults brings its bytes through a buffer of any size: cut to the
buffer its deliveries stay what they were, only shorter. -/
theorem brings_ofScript {capacity : Nat} (hcapacity : 0 < capacity) {script : List Delivery}
    (hsmooth : ∀ delivery ∈ script, delivery.IsSmooth) :
    (ofScript capacity script).Brings (script.flatMap (·.bytes)) := by
  refine ⟨fun part hpart => ?_, bytes_ofScript hcapacity script⟩
  rw [ofScript, if_neg (Nat.pos_iff_ne_zero.1 hcapacity)] at hpart
  obtain ⟨delivery, hdelivery, hpart⟩ := List.mem_flatMap.1 hpart
  exact isSmooth_of_mem_split (hsmooth delivery hdelivery) hpart

/-- Independence of arrival: **calls on bytes that come in chunks have the readings
of the bytes,** and leave the same of them.  Interruptions may come before,
between and after the chunks, and the buffer may have any size. -/
theorem readings_ofScript {capacity : Nat} (hcapacity : 1 ≤ capacity) {bytes : Bytes}
    {script : List Delivery} (hsmooth : ∀ delivery ∈ script, delivery.IsSmooth)
    (hbytes : script.flatMap (·.bytes) = bytes) (limits : Limits) (count : Nat) :
    (readings limits count (ofScript capacity script)).1 = (readings limits count bytes).1 ∧
      (readings limits count (ofScript capacity script)).2.bytes =
        (readings limits count bytes).2 := by
  have hbrings := brings_ofScript hcapacity hsmooth
  rw [hbytes] at hbrings
  obtain ⟨hreadings, hleft⟩ := readings_alike brings_indistinguishable limits count hbrings
  exact ⟨hreadings, hleft.bytes_eq⟩

/-- Two numbers and a byte that is no marker between them, cut inside a number and
inside a terminator. -/
def shredded : List Delivery :=
  [.fault ⟨.interrupted, "again"⟩, .chunk (ascii ":1".toList), .fault ⟨.interrupted, "again"⟩,
    .chunk (ascii "2\r".toList), .chunk (ascii "\nx:3\r".toList),
    .fault ⟨.interrupted, "again"⟩, .chunk (ascii "\n".toList), .fault ⟨.interrupted, "again"⟩]

/-- The number behind the error is read like the one before it. -/
theorem readings_shredded :
    (∀ delivery ∈ shredded, delivery.IsSmooth) ∧
      shredded.flatMap (·.bytes) = ascii ":12\r\nx:3\r\n".toList ∧
      (readings {} 3 (ofScript 2 shredded)).1.map (·.taken) = [5, 1, 4] := by
  have hsmooth : ∀ delivery ∈ shredded, delivery.IsSmooth := by decide
  have hbytes : shredded.flatMap (·.bytes) = ascii ":12\r\nx:3\r\n".toList := by decide
  have hreadings := (readings_ofScript (by decide : 1 ≤ 2) hsmooth hbytes {} 3).1
  refine ⟨hsmooth, hbytes, ?_⟩
  rw [hreadings]
  rfl

end Inbound
end RespCodec
