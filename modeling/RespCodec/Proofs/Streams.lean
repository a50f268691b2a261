/-
# Streams and counts

An aggregate is written in one of two ways.  Behind a count stand as many units as the
count says.  A stream has no count: its units go on up to one that ends the stream.

| behind the marker | decoded as |
| --- | --- |
| a count, units | the values of the units |
| `? CR LF`, units, an end of stream | the values of the units, if they fill entries |

So both ways have the same elements (`decodeBody_streamed`).  What ends a stream is not
one of them, while behind a count it is an element like any other.
-/

import RespCodec.Proofs.Nesting
import RespCodec.Proofs.RoundTrip

namespace RespCodec

open Grammar

variable {limits : Limits} {levels perEntry : Nat} {kind : Kind}

/-- Units behind the mark of an open length, and the unit that ends them. -/
def streamOf (units : List (Bytes × Value)) (last : Bytes) : Bytes :=
  '?'.toUInt8 :: crlf ++ units.flatMap (·.1) ++ last

/-! ## Units one after another -/

/-- Bytes that are decoded to the last one are a unit of the grammar. -/
theorem unit_of_decodeWithin {bytes : Bytes} {value : Value}
    (h : decodeWithin limits levels bytes = .ok value []) :
    Grammar.unit limits levels bytes value := by
  obtain ⟨head, hhead, rfl⟩ := decodeWithin_eq_ok_iff.1 h
  rwa [List.append_nil]

/-- Bytes that are decoded one by one are units one after another. -/
theorem units_of_decodeWithin {units : List (Bytes × Value)}
    (h : ∀ unit ∈ units, decodeWithin limits levels unit.1 = .ok unit.2 []) :
    Units (Grammar.unit limits levels) (units.flatMap (·.1)) (units.map (·.2)) := by
  induction units with
  | nil => exact .nil
  | cons unit units ih =>
    obtain ⟨hunit, hunits⟩ := List.forall_mem_cons.1 h
    exact .cons (unit_of_decodeWithin hunit) (ih hunits)

/-! ## Aggregates -/

/-- An aggregate of the grammar is decoded behind the marker of its kind. -/
theorem decodeBody_of_aggregate (hform : kind.form = .aggregate perEntry) {bytes : Bytes}
    {data : Data Value} (h : Aggregate perEntry (Grammar.unit limits levels) bytes data)
    (rest : Bytes) : decodeBody limits (levels + 1) kind (bytes ++ rest) = .ok data rest := by
  have hmarker : (kind.symbol, kind, perEntry) ∈ aggregateMarkers :=
    Decoder.mem_aggregateMarkers_iff.2 ⟨rfl, hform⟩
  exact decodeBody_eq_ok_iff.2 ⟨bytes, .aggregate hmarker rfl h, rfl⟩

/-- Behind a count, units of any kind are elements.  An end of stream among them is an element
like the others, as nobody looks at their kinds there. -/
theorem decodeBody_counted (hform : kind.form = .aggregate perEntry)
    {units : List (Bytes × Value)}
    (hunits : ∀ unit ∈ units, decodeWithin limits levels unit.1 = .ok unit.2 []) {head : Bytes}
    {count : Nat} (hhead : Number head count) (hcount : units.length = count * perEntry)
    (rest : Bytes) :
    decodeBody limits (levels + 1) kind (head ++ units.flatMap (·.1) ++ rest) =
      .ok (.elements (units.map (·.2))) rest := by
  have hitems : (units.map (·.2)).length = count * perEntry := by rwa [List.length_map]
  exact decodeBody_of_aggregate hform (.bounded hhead (units_of_decodeWithin hunits) hitems) rest

namespace Decoder

/-- Behind the mark of an open length, elements are read up to an end of stream. -/
theorem run_aggregate_streamed {rounds : Nat} {element : Decoder Value} {input : Bytes}
    (hrounds : (streamedMark :: crlf ++ input).length < rounds) :
    (aggregate perEntry rounds element).run (streamedMark :: crlf ++ input) =
      match (elementsToEnd element rounds []).run input with
      | .ok items rest =>
        if items.length % perEntry = 0 then .ok (.elements items) rest
        else .error (.violation (.oddMapLength items.length)) rest
      | .error e rest => .error e rest := by
  have hheader : (header rounds).run (streamedMark :: crlf ++ input) = .ok .streamed input :=
    (header_exact rounds).complete HeaderBytes.streamed hrounds
  simp only [aggregate, bind_eq, run_bind, hheader]
  cases (elementsToEnd element rounds []).run input with
  | error e rest => rfl
  | ok items rest =>
    dsimp only
    split
    · rfl
    · rfl

end Decoder

/-- A stream is decoded as its elements, and refused if they leave a key without a value. -/
theorem decodeBody_openLength (hform : kind.form = .aggregate perEntry) {rounds : Nat}
    {input : Bytes} (hrounds : ('?'.toUInt8 :: crlf ++ input).length < rounds) :
    decodeBody limits (levels + 1) kind ('?'.toUInt8 :: crlf ++ input) =
      match (Decoder.elementsToEnd (Decoder.unit limits rounds levels) rounds []).run input with
      | .ok items rest =>
        if items.length % perEntry = 0 then .ok (.elements items) rest
        else .error (.violation (.oddMapLength items.length)) rest
      | .error e rest => .error e rest := by
  have hbody : Decoder.body limits rounds (Decoder.elementReader? limits rounds (levels + 1)) kind =
      Decoder.aggregate perEntry rounds (Decoder.unit limits rounds levels) := by
    simp only [Decoder.body, hform]
    rfl
  rw [← Decoder.run_body_eq hrounds, hbody]
  exact Decoder.run_aggregate_streamed hrounds

/-- The elements of a stream are units up to one that ends the stream. -/
theorem run_elementsToEnd_eq_ok {rounds : Nat} {input rest : Bytes} {items : List Value}
    (hrounds : ('?'.toUInt8 :: crlf ++ input).length < rounds) :
    (Decoder.elementsToEnd (Decoder.unit limits rounds levels) rounds []).run input =
        .ok items rest ↔
      ∃ front last final, input = front ++ last ++ rest ∧
        Units (Grammar.unit limits levels) front items ∧
        (∀ item ∈ items, item.kind ≠ .endOfStream) ∧ Grammar.unit limits levels last final ∧
        final.kind = .endOfStream := by
  have hexact := Decoder.elementsToEnd_exact (Decoder.unit_exact limits rounds levels)
    unit_ne_nil (Nat.le_refl rounds) []
  constructor
  · intro h
    obtain ⟨_, ⟨front, last, _, final, rfl, hfront, hitems, hlast, hfinal, rfl⟩, rfl⟩ :=
      hexact.sound h
    exact ⟨front, last, final, rfl, hfront, hitems, hlast, hfinal⟩
  · rintro ⟨front, last, final, rfl, hfront, hitems, hlast, hfinal⟩
    refine hexact.complete ⟨front, last, items, final, rfl, hfront, hitems, hlast, hfinal, rfl⟩ ?_
    rw [List.cons_append, List.length_cons, List.length_append] at hrounds
    omega

/-- What ends a stream is not among its elements. -/
theorem kind_ne_of_decodeBody (hform : kind.form = .aggregate perEntry) {input rest : Bytes}
    {data : Data Value}
    (h : decodeBody limits (levels + 1) kind ('?'.toUInt8 :: crlf ++ input) = .ok data rest) :
    ∃ items, data = .elements items ∧ ∀ item ∈ items, item.kind ≠ .endOfStream := by
  have hrounds := Nat.lt_succ_self ('?'.toUInt8 :: crlf ++ input).length
  rw [decodeBody_openLength hform hrounds] at h
  split at h
  · rename_i items left hrun
    obtain ⟨_, _, _, _, _, hitems, _⟩ := (run_elementsToEnd_eq_ok hrounds).1 hrun
    split at h
    · cases h
      exact ⟨items, rfl, hitems⟩
    · cases h
  · cases h

/-- Units up to one that ends the stream are its elements, if they fill entries.  How many they
are is looked at when the last of them is read. -/
theorem decodeBody_streamOf (hform : kind.form = .aggregate perEntry)
    {units : List (Bytes × Value)}
    (hunits : ∀ unit ∈ units, decodeWithin limits levels unit.1 = .ok unit.2 [])
    (hvalues : ∀ unit ∈ units, unit.2.kind ≠ .endOfStream) {last : Bytes} {final : Value}
    (hlast : decodeWithin limits levels last = .ok final []) (hfinal : final.kind = .endOfStream)
    (rest : Bytes) :
    decodeBody limits (levels + 1) kind (streamOf units last ++ rest) =
      if units.length % perEntry = 0 then .ok (.elements (units.map (·.2))) rest
      else .error (.violation (.oddMapLength units.length)) rest := by
  have hinput : streamOf units last ++ rest =
      '?'.toUInt8 :: crlf ++ (units.flatMap (·.1) ++ last ++ rest) := by
    simp [streamOf]
  rw [hinput]
  -- any number of rounds will do that is beyond the bytes
  obtain ⟨rounds, hrounds⟩ :
      ∃ rounds, ('?'.toUInt8 :: crlf ++ (units.flatMap (·.1) ++ last ++ rest)).length < rounds :=
    ⟨_, Nat.lt_succ_self _⟩
  have hrun : (Decoder.elementsToEnd (Decoder.unit limits rounds levels) rounds []).run
      (units.flatMap (·.1) ++ last ++ rest) = .ok (units.map (·.2)) rest :=
    (run_elementsToEnd_eq_ok hrounds).2 ⟨_, last, final, rfl, units_of_decodeWithin hunits,
      List.forall_mem_map.2 hvalues, unit_of_decodeWithin hlast, hfinal⟩
  rw [decodeBody_openLength hform hrounds, hrun]
  simp only [List.length_map]

/-- Streams: **an aggregate has the same elements as a stream as behind a count.**  A stream of
units that fill entries is decoded as their values, and so are the units behind their count;
the whole aggregates come to the same, whatever follows them.  A stream that leaves a key
without a value is refused.  What ends a stream is never an element of it, while behind a count
units of any kind are elements. -/
theorem decodeBody_streamed (hform : kind.form = .aggregate perEntry)
    {units : List (Bytes × Value)}
    (hunits : ∀ unit ∈ units, decodeWithin limits levels unit.1 = .ok unit.2 [])
    (hvalues : ∀ unit ∈ units, unit.2.kind ≠ .endOfStream) {last : Bytes} {final : Value}
    (hlast : decodeWithin limits levels last = .ok final []) (hfinal : final.kind = .endOfStream)
    (rest : Bytes) :
    (∀ (count : Nat) (head : Bytes), units.length = count * perEntry → Number head count →
        decodeBody limits (levels + 1) kind (streamOf units last ++ rest) =
            .ok (.elements (units.map (·.2))) rest ∧
          decodeBody limits (levels + 1) kind (head ++ units.flatMap (·.1) ++ rest) =
            .ok (.elements (units.map (·.2))) rest ∧
          decodeWithin limits (levels + 1) (kind.marker :: (streamOf units last ++ rest)) =
            decodeWithin limits (levels + 1)
              (kind.marker :: (head ++ units.flatMap (·.1) ++ rest))) ∧
      (¬ perEntry ∣ units.length →
        decodeBody limits (levels + 1) kind (streamOf units last ++ rest) =
          .error (.violation (.oddMapLength units.length)) rest) ∧
      (∀ (input left : Bytes) (data : Data Value),
        decodeBody limits (levels + 1) kind ('?'.toUInt8 :: crlf ++ input) = .ok data left →
        ∃ items, data = .elements items ∧ ∀ item ∈ items, item.kind ≠ .endOfStream) ∧
      ∀ (others : List (Bytes × Value)) (count : Nat) (head : Bytes),
        (∀ other ∈ others, decodeWithin limits levels other.1 = .ok other.2 []) →
        others.length = count * perEntry → Number head count →
        decodeBody limits (levels + 1) kind (head ++ others.flatMap (·.1) ++ rest) =
          .ok (.elements (others.map (·.2))) rest := by
  have hstream := decodeBody_streamOf hform hunits hvalues hlast hfinal rest
  refine ⟨?_, ?_, ?_, ?_⟩
  · intro count head hcount hhead
    have hcounted := decodeBody_counted hform hunits hhead hcount rest
    rw [if_pos (by rw [hcount, Nat.mul_mod_left])] at hstream
    exact ⟨hstream, hcounted, decodeWithin_congr (hstream.trans hcounted.symm)⟩
  · intro hodd
    rwa [if_neg fun hmod => hodd (Nat.dvd_of_mod_eq_zero hmod)] at hstream
  · intro input left data h
    exact kind_ne_of_decodeBody hform h
  · intro others count head hothers hcount hhead
    exact decodeBody_counted hform hothers hhead hcount rest

/-- A key, and a stream that is its value. -/
def pairing : List (Bytes × Value) :=
  [(ascii "+k\r\n".toList, .simpleString (ascii ['k'])),
    (ascii "*?\r\n:7\r\n.\r\n".toList, .array [.integer 7])]

/-- An end of stream behind an attributes unit. -/
def attributedEnd : Bytes := ascii "|0\r\n.\r\n".toList

/-- A map in a stream that ends behind an attributes unit, and the map behind its count.  With
the key alone the stream is refused. -/
theorem decodeBody_pairing :
    decodeBody {} 3 .map (streamOf pairing attributedEnd ++ [cr]) =
        .ok (.elements [.simpleString (ascii ['k']), .array [.integer 7]]) [cr] ∧
      decodeBody {} 3 .map (ascii "1\r\n+k\r\n*?\r\n:7\r\n.\r\n\r".toList) =
        .ok (.elements [.simpleString (ascii ['k']), .array [.integer 7]]) [cr] ∧
      decodeBody {} 3 .map (streamOf (pairing.take 1) attributedEnd) =
        .error (.violation (.oddMapLength 1)) [] := by
  have hform : Kind.map.form = .aggregate 2 := rfl
  have hunits : ∀ unit ∈ pairing, decodeWithin {} 2 unit.1 = .ok unit.2 [] :=
    List.forall_mem_cons.2 ⟨rfl, List.forall_mem_singleton.2 rfl⟩
  have hvalues : ∀ unit ∈ pairing, unit.2.kind ≠ .endOfStream := by decide
  have hlast : decodeWithin {} 2 attributedEnd =
      .ok ⟨.endOfStream, .null, some (.attributesUnit [])⟩ [] := rfl
  have hone : Number _ (1 : Nat) := number_digits (by decide)
  obtain ⟨hstream, hcounted, -⟩ :=
    (decodeBody_streamed hform hunits hvalues hlast rfl [cr]).1 1 _ rfl hone
  have hkey : ∀ unit ∈ pairing.take 1, decodeWithin {} 2 unit.1 = .ok unit.2 [] :=
    fun unit h => hunits unit (List.mem_of_mem_take h)
  have hkeyValue : ∀ unit ∈ pairing.take 1, unit.2.kind ≠ .endOfStream :=
    fun unit h => hvalues unit (List.mem_of_mem_take h)
  have hodd := (decodeBody_streamed hform hkey hkeyValue hlast rfl []).2.1 (by decide)
  exact ⟨hstream, hcounted, hodd⟩

end RespCodec
