/-
# Entries lose nothing

A map keeps its entries as a flat list, and its entries are that list two by two.  Three
places have to agree on the list: what builds a map from entries, what finds them again, and
what decodes one.

| from | to | by |
| --- | --- | --- |
| entries | elements | `flattenEntries` |
| elements | entries | `pairs`, which leaves out a last one that stands alone |
| a count, then two units for each entry | elements | `decode` |

Entries put into a map are found in it again whatever they are (`pairs_flattenEntries`).  The
other way round an odd number of elements would lose one, and so it rests on what is decoded:
the maps and the attributes units in a decoded value hold an even number, at whatever depth,
by count and in streams (`Part.Sound.entriesComplete`).
-/

import RespCodec.Proofs.Nulls
import RespCodec.Proofs.Streams
import RespCodec.Proofs.Synchrony

namespace RespCodec

open Grammar

/-- Of an even number of elements none is left out. -/
theorem flattenEntries_pairs {ν : Type} {items : List ν} (h : 2 ∣ items.length) :
    flattenEntries (pairs items) = items := by
  induction items using pairs.induct with
  | case1 key value items ih =>
    have hitems : 2 ∣ items.length := by
      rw [List.length_cons, List.length_cons] at h
      omega
    show key :: value :: flattenEntries (pairs items) = key :: value :: items
    rw [ih hitems]
  | case2 items hitems =>
    match items, hitems with
    | [], _ => rfl
    | [_], _ => exact absurd (Nat.le_of_dvd Nat.one_pos h) (Nat.not_succ_le_self 1)
    | key :: value :: items, hitems => exact absurd rfl (hitems key value items)

/-- An entry is two elements, so the length of a map in elements is twice that in entries. -/
theorem length_flattenEntries {ν : Type} (entries : List (ν × ν)) :
    (flattenEntries entries).length = entries.length * 2 := by
  induction entries with
  | nil => rfl
  | cons entry entries ih =>
    rw [List.length_cons, Nat.add_mul, ← ih]
    rfl

/-- The entries of the value, taken apart into keys and values, are its elements. -/
def Value.EntriesComplete (value : Value) : Prop :=
  ∀ items, value.elements? = some items →
    ∃ entries, value.entries? = some entries ∧ flattenEntries entries = items

/-- The elements of a value are those in its data.  Text, integers and nulls have none. -/
theorem Value.elements?_eq_some_iff {value : Value} {items : List Value} :
    value.elements? = some items ↔ value.data = .elements items := by
  obtain ⟨kind, data, attributes⟩ := value
  cases data <;> simp [elements?]

/-- A map or an attributes unit as it has to be loses no element.  Its elements are even in
number, so there is a value behind the last key. -/
theorem Part.Sound.entriesComplete {limits : Limits} {part : Part} (h : part.Sound limits)
    (hkind : part.value.kind.isMap = true) : part.value.EntriesComplete := by
  intro items hitems
  have hfits := h.data
  rw [Value.elements?_eq_some_iff.1 hitems] at hfits
  have heven : 2 ∣ items.length := by
    rcases hfits with hsequence | ⟨-, heven⟩
    · have hall : ∀ kind ∈ sequenceKinds, kind.isMap = false := by decide
      exact absurd hkind (Bool.eq_false_iff.1 (hall _ hsequence))
    · exact heven
  refine ⟨pairs items, ?_, flattenEntries_pairs heven⟩
  rw [Value.entries?, if_pos hkind, hitems, Option.map_some]

variable {limits : Limits} {levels : Nat}

/-- Behind a count of entries, their keys and values in alternation are decoded as the map that
the entries make. -/
theorem decodeWithin_map {units : List (Bytes × Value)}
    (hunits : ∀ unit ∈ units, decodeWithin limits levels unit.1 = .ok unit.2 [])
    {entries : List (Value × Value)} (hvalues : units.map (·.2) = flattenEntries entries)
    {head : Bytes} (hhead : Number head entries.length) (rest : Bytes) :
    decodeWithin limits (levels + 1)
        (Kind.map.marker :: (head ++ units.flatMap (·.1) ++ rest)) = .ok (.map entries) rest := by
  have hform : Kind.map.form = .aggregate 2 := rfl
  have hcount : units.length = entries.length * 2 := by
    rw [← length_flattenEntries, ← hvalues, List.length_map]
  rw [decodeWithin_marker (by decide), decodeBody_counted hform hunits hhead hcount, hvalues]
  rfl

/-- Entries: **taking a map apart into entries loses none of its elements,** for every map and
every attributes unit in a decoded value, from a list of bytes or as they arrive.  Entries are
found again as they were put into a map or an attributes unit.  And the map that entries make is
what is decoded behind their count from their keys and values in alternation, which are units
one level deeper. -/
theorem decode_entries (limits : Limits) :
    (∀ (input rest : Bytes) (value : Value), decode limits input = .ok value rest →
        ∀ part ∈ value.parts, part.value.kind.isMap = true → part.value.EntriesComplete) ∧
      (∀ (inbound left : Inbound) (value : Value), decode limits inbound = .ok value left →
        ∀ part ∈ value.parts, part.value.kind.isMap = true → part.value.EntriesComplete) ∧
      (∀ entries, (Value.map entries).entries? = some entries ∧
        (Value.attributesUnit entries).entries? = some entries) ∧
      ∀ (levels : Nat) (units : List (Bytes × Value)) (entries : List (Value × Value))
        (rest : Bytes), (∀ unit ∈ units, decodeWithin limits levels unit.1 = .ok unit.2 []) →
        units.map (·.2) = flattenEntries entries → entries.length < 2 ^ 63 →
        decodeWithin limits (levels + 1) (ascii ('%' :: Decimal.digits entries.length) ++ crlf ++
            units.flatMap (·.1) ++ rest) = .ok (.map entries) rest ∧
          (levels + 1 = limits.maxDepth →
            decode limits (ascii ('%' :: Decimal.digits entries.length) ++ crlf ++
              units.flatMap (·.1) ++ rest) = .ok (.map entries) rest) := by
  refine ⟨?_, ?_, ?_, ?_⟩
  · intro input rest value h part hpart hkind
    exact (sound_of_decode h hpart).entriesComplete hkind
  · intro inbound left value h part hpart hkind
    -- what is decoded on arrival is decoded from the bytes that arrive
    exact (sound_of_decode (decode_bytes_of_ok h) hpart).entriesComplete hkind
  · intro entries
    exact ⟨Value.entries?_map entries, Value.entries?_attributesUnit entries⟩
  · intro levels units entries rest hunits hvalues hlength
    have hmap := decodeWithin_map hunits hvalues (number_digits hlength) rest
    refine ⟨hmap, fun hlevels => ?_⟩
    -- with all levels left, decoding within them is decoding
    rw [← decodeWithin_maxDepth, ← hlevels]
    exact hmap

/-- A map of two entries behind an attributes unit.  One of its values is a streamed map behind an
attributes unit of its own. -/
def cataloged : Bytes :=
  ascii "|1\r\n+a\r\n:1\r\n%2\r\n+k\r\n_\r\n:7\r\n|1\r\n+c\r\n#t\r\n%?\r\n+l\r\n:3\r\n.\r\n".toList

/-- The value that it is written for. -/
def catalog : Value :=
  (Value.map [(.simpleString (ascii ['k']), .null),
    (.integer 7, (Value.map [(.simpleString (ascii ['l']), .integer 3)]).withAttributes
      (.attributesUnit [(.simpleString (ascii ['c']), .boolean true)]))]).withAttributes
    (.attributesUnit [(.simpleString (ascii ['a']), .integer 1)])

/-- The keys and values of two entries, as they stand on the wire. -/
def alternating : List (Bytes × Value) :=
  [(ascii "+k\r\n".toList, .simpleString (ascii ['k'])), (ascii "_\r\n".toList, .null),
    (ascii ":7\r\n".toList, .integer 7), (ascii "%0\r\n".toList, .map [])]

/-- Each of the four lists of entries is complete, and a map is what its entries make. -/
theorem decode_cataloged :
    decode {} cataloged = .ok catalog [] ∧
      (catalog.parts.filter (·.value.kind.isMap)).length = 4 ∧
      (∀ part ∈ catalog.parts, part.value.kind.isMap = true → part.value.EntriesComplete) ∧
      decode {} (ascii "%2\r\n+k\r\n_\r\n:7\r\n%0\r\n".toList) =
        .ok (.map [(.simpleString (ascii ['k']), .null), (.integer 7, .map [])]) [] := by
  obtain ⟨hbytes, -, -, hmap⟩ := decode_entries {}
  have hdecode : decode {} cataloged = .ok catalog [] := rfl
  have hunits : ∀ unit ∈ alternating, decodeWithin {} 127 unit.1 = .ok unit.2 [] :=
    List.forall_mem_cons.2 ⟨rfl, List.forall_mem_cons.2 ⟨rfl, List.forall_mem_cons.2
      ⟨rfl, List.forall_mem_singleton.2 rfl⟩⟩⟩
  have hvalues : alternating.map (·.2) =
      flattenEntries [(.simpleString (ascii ['k']), .null), (.integer 7, .map [])] := rfl
  obtain ⟨-, hpairs⟩ := hmap 127 alternating _ [] hunits hvalues (by decide)
  exact ⟨hdecode, rfl, hbytes _ _ _ hdecode, hpairs rfl⟩

end RespCodec
