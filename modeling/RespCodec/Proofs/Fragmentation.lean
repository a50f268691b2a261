/-
# Blobs in fragments

A blob is written behind its length, or in fragments behind a length of their own each,
up to an empty one.  What a fragment reader does with one fragment is said once
(`run_fragmentsFrom_fragment`): it is refused if it goes past the limit with what was
collected before it, and collected otherwise.

By induction on the fragments, all of them are joined if they stay within the limit, and
otherwise the first that goes past it is refused before its bytes are read
(`run_fragmentsFrom_tooLarge`).  So fragments are decoded as the blob that they were cut
from, wherever it was cut (`decodeWithin_fragmented`).
-/

import RespCodec.Proofs.Nesting
import RespCodec.Proofs.RoundTrip

namespace RespCodec

open Grammar

/-- A fragment as it is written: the number of its bytes with a terminator, and its bytes. -/
structure Fragment where
  head : Bytes
  bytes : Bytes

namespace Fragment

/-- A fragment on the wire. -/
def encode (fragment : Fragment) : Bytes :=
  ';'.toUInt8 :: fragment.head ++ fragment.bytes ++ crlf

/-- The number is right, and it is not that of the empty fragment. -/
structure Valid (fragment : Fragment) : Prop where
  head : Number fragment.head fragment.bytes.length
  ne_nil : fragment.bytes ≠ []

/-- The bytes of all fragments. -/
def joined (fragments : List Fragment) : Bytes := fragments.flatMap (·.bytes)

/-- Fragments behind the mark of an open length, and the empty one, of which only the
number is written. -/
def encodeAll (fragments : List Fragment) (last : Bytes) : Bytes :=
  '?'.toUInt8 :: crlf ++ fragments.flatMap encode ++ ';'.toUInt8 :: last

/-- What fragments hold is joined front to back. -/
theorem joined_cons (fragment : Fragment) (fragments : List Fragment) :
    joined (fragment :: fragments) = fragment.bytes ++ joined fragments := List.flatMap_cons

/-- Fragments are written for what they are when joined. -/
theorem fragments_encode {fragments : List Fragment}
    (hvalid : ∀ fragment ∈ fragments, fragment.Valid) {last : Bytes} (hlast : Number last 0) :
    Fragments (fragments.flatMap encode ++ ';'.toUInt8 :: last) (joined fragments) := by
  induction fragments with
  | nil => exact .last hlast
  | cons fragment fragments ih =>
    obtain ⟨⟨hhead, hne⟩, hothers⟩ := List.forall_mem_cons.1 hvalid
    rw [joined_cons, List.flatMap_cons, List.append_assoc]
    exact .more hhead hne (ih hothers)

end Fragment

namespace Decoder

open Fragment (joined)

variable {limit headerRounds rounds : Nat} {collected more : Bytes}

/-- What is done with a fragment: it is refused, unread, if it goes past the limit, and
collected otherwise.  The total is checked with the fragment in it, before its payload is read. -/
theorem run_fragmentsFrom_fragment {fragment : Fragment} (hvalid : fragment.Valid)
    (hrounds : (fragment.encode ++ more).length < headerRounds) :
    (fragmentsFrom limit headerRounds (rounds + 1) collected).run (fragment.encode ++ more) =
      if limit < collected.length + fragment.bytes.length then
        .error (.violation (.blobTooLarge (collected.length + fragment.bytes.length) limit))
          (fragment.bytes ++ crlf ++ more)
      else (fragmentsFrom limit headerRounds rounds (collected ++ fragment.bytes)).run more := by
  have hbytes : fragment.encode ++ more =
      fragmentMark :: (fragment.head ++ (fragment.bytes ++ crlf ++ more)) := by
    simp [Fragment.encode, fragmentMark]
  rw [hbytes] at hrounds ⊢
  have hmark (tail : Bytes) : (expect fragmentMark).run (fragmentMark :: tail) = .ok () tail :=
    run_expect_eq_ok.2 rfl
  obtain ⟨n, hneg, htoNat, hheader⟩ :=
    exists_header_of_length hvalid.head (Nat.lt_of_succ_lt hrounds)
  -- a length of zero is for the end of the fragments alone
  have hzero : ¬n = 0 := by
    rintro rfl
    exact hvalid.ne_nil (List.eq_nil_of_length_eq_zero htoNat.symm)
  have hpayload : (Decoder.payload fragment.bytes.length).run (fragment.bytes ++ crlf ++ more) =
      .ok fragment.bytes more := run_payload_eq_ok.2 ⟨rfl, List.append_assoc ..⟩
  simp only [fragmentsFrom, bind_eq, run_bind, hmark, hheader, if_neg hneg, if_neg hzero, htoNat,
    run_checkLength]
  by_cases hlimit : limit < collected.length + fragment.bytes.length
  · rw [if_pos hlimit, if_pos hlimit]
  · rw [if_neg hlimit, if_neg hlimit]
    simp only [hpayload]

/-- Of fragments that go past the limit together, the first to do so is refused.  By induction
on the fragments: those in front of it are collected, and its payload stays in front of what
follows. -/
theorem run_fragmentsFrom_tooLarge {fragments : List Fragment}
    (hvalid : ∀ fragment ∈ fragments, fragment.Valid) (hcollected : collected.length ≤ limit)
    (hlimit : limit < collected.length + (joined fragments).length)
    (hrounds : (fragments.flatMap Fragment.encode ++ more).length < rounds)
    (hheader : rounds ≤ headerRounds) :
    ∃ before fragment after, fragments = before ++ fragment :: after ∧
      collected.length + (joined before).length ≤ limit ∧
      limit < collected.length + (joined before).length + fragment.bytes.length ∧
      (fragmentsFrom limit headerRounds rounds collected).run
          (fragments.flatMap Fragment.encode ++ more) =
        .error (.violation (.blobTooLarge
            (collected.length + (joined before).length + fragment.bytes.length) limit))
          (fragment.bytes ++ crlf ++ (after.flatMap Fragment.encode ++ more)) := by
  induction fragments generalizing collected rounds with
  | nil => exact absurd hlimit (Nat.not_lt_of_le hcollected)
  | cons fragment fragments ih =>
    obtain ⟨hfragment, hothers⟩ := List.forall_mem_cons.1 hvalid
    have hsum (others : List Fragment) : (collected ++ fragment.bytes).length +
        (joined others).length = collected.length + (joined (fragment :: others)).length := by
      rw [Fragment.joined_cons, List.length_append, List.length_append, Nat.add_assoc]
    rw [List.flatMap_cons, List.append_assoc] at hrounds ⊢
    obtain ⟨rounds, rfl, hnext⟩ := exists_round hrounds
    rw [run_fragmentsFrom_fragment hfragment (Nat.lt_of_lt_of_le hrounds hheader)]
    -- this fragment goes past the limit, or it is collected and a later one does
    by_cases hfirst : limit < collected.length + fragment.bytes.length
    · rw [if_pos hfirst]
      exact ⟨[], fragment, fragments, rfl, hcollected, hfirst, rfl⟩
    · rw [if_neg hfirst]
      rw [Nat.not_lt, ← List.length_append] at hfirst
      rw [← hsum] at hlimit
      have hless : (fragments.flatMap Fragment.encode ++ more).length < rounds := by
        rw [Fragment.encode, List.cons_append, List.cons_append, List.cons_append,
          List.length_cons, List.length_append] at hnext
        omega
      obtain ⟨before, next, after, rfl, hbefore, hpast, hrun⟩ :=
        ih hothers hfirst hlimit hless (Nat.le_of_succ_le hheader)
      rw [hsum] at hbefore hpast hrun
      exact ⟨fragment :: before, next, after, rfl, hbefore, hpast, hrun⟩

/-- A length that goes past the limit is refused before the payload is read. -/
theorem run_blob_tooLarge {head : Bytes} {length : Nat} (hhead : Number head length)
    (hlimit : limit < length) (hrounds : (head ++ more).length < rounds) :
    (blob limit rounds).run (head ++ more) =
      .error (.violation (.blobTooLarge length limit)) more := by
  obtain ⟨n, hneg, htoNat, hheader⟩ := exists_header_of_length hhead hrounds
  simp only [blob, bind_eq, run_bind, hheader, if_neg hneg, htoNat, run_checkLength, if_pos hlimit]

/-- Fragments that go past the limit are refused at the first to do so. -/
theorem run_blob_encodeAll {fragments : List Fragment}
    (hvalid : ∀ fragment ∈ fragments, fragment.Valid) (hlimit : limit < (joined fragments).length)
    {last : Bytes} (hrounds : (Fragment.encodeAll fragments last ++ more).length < rounds) :
    ∃ before fragment after, fragments = before ++ fragment :: after ∧
      (joined before).length ≤ limit ∧
      limit < (joined before).length + fragment.bytes.length ∧
      (blob limit rounds).run (Fragment.encodeAll fragments last ++ more) =
        .error (.violation (.blobTooLarge ((joined before).length + fragment.bytes.length) limit))
          (fragment.bytes ++ crlf ++ (after.flatMap Fragment.encode ++
            (';'.toUInt8 :: last ++ more))) := by
  have hbytes : Fragment.encodeAll fragments last ++ more = streamedMark :: crlf ++
      (fragments.flatMap Fragment.encode ++ (';'.toUInt8 :: last ++ more)) := by
    simp [Fragment.encodeAll, streamedMark]
  rw [hbytes] at hrounds ⊢
  have hheader : (header rounds).run (streamedMark :: crlf ++ _) = .ok .streamed _ :=
    (header_exact rounds).complete HeaderBytes.streamed hrounds
  -- the fragments are fewer bytes than the blob, so its rounds do for them
  have hless : (fragments.flatMap Fragment.encode ++ (';'.toUInt8 :: last ++ more)).length <
      rounds := by
    rw [List.cons_append, List.length_cons, List.length_append] at hrounds
    omega
  have hpast : limit < ([] : Bytes).length + (joined fragments).length := by
    rwa [List.length_nil, Nat.zero_add]
  obtain ⟨before, fragment, after, hfragments, hbefore, hpast, hrun⟩ :=
    run_fragmentsFrom_tooLarge hvalid (Nat.zero_le limit) hpast hless (Nat.le_refl rounds)
  rw [List.length_nil, Nat.zero_add] at hbefore hpast hrun
  refine ⟨before, fragment, after, hfragments, hbefore, hpast, ?_⟩
  simp only [blob, bind_eq, run_bind, hheader, hrun]

end Decoder

variable {limits : Limits} {kind : Kind}

/-- Behind a marker of blobs, a blob comes to a value of the kind or to a null. -/
theorem decodeWithin_blob (hform : kind.form = .blob) (levels : Nat) (input : Bytes) :
    decodeWithin limits levels (kind.marker :: input) =
      match (Decoder.blob limits.maxBlobLength (input.length + 1)).run input with
      | .ok (some bytes) rest => .ok (.ofData kind (.str bytes)) rest
      | .ok none rest => .ok .null rest
      | .error e rest => .error e rest := by
  have hattributes : kind ≠ .attributes := fun h => by cases h ▸ hform
  have hend : kind ≠ .endOfStream := fun h => by cases h ▸ hform
  simp only [decodeWithin_marker hattributes, decodeBody, Decoder.body, hform, Decoder.bind_eq,
    Decoder.run_bind]
  cases (Decoder.blob limits.maxBlobLength (input.length + 1)).run input with
  | error e rest => rfl
  | ok bytes? rest =>
    cases bytes? with
    | some bytes => rfl
    | none =>
      simp only [Decoder.pure_eq_done, Decoder.run_done, Decoder.settledKind_null hend]
      rfl

/-- A blob of the grammar is decoded as its payload. -/
theorem decodeWithin_of_blob (hform : kind.form = .blob) {bytes payload : Bytes}
    (h : Blob limits.maxBlobLength bytes (some payload)) (levels : Nat) (rest : Bytes) :
    decodeWithin limits levels (kind.marker :: (bytes ++ rest)) =
      .ok (.ofData kind (.str payload)) rest := by
  have hrun := (Decoder.blob_exact _ _).complete h (Nat.lt_succ_self (bytes ++ rest).length)
  rw [decodeWithin_blob hform, hrun]

section Fragments

open Fragment (encodeAll joined)

variable {fragments : List Fragment} {last : Bytes}

/-- Fragments within the limit are decoded as the bytes of all.  They are a blob of the grammar
whose payload is all of them joined, so nothing is left of where they were cut. -/
theorem decodeWithin_encodeAll (hform : kind.form = .blob)
    (hvalid : ∀ fragment ∈ fragments, fragment.Valid) (hlast : Number last 0)
    (hlimit : (joined fragments).length ≤ limits.maxBlobLength) (levels : Nat) (rest : Bytes) :
    decodeWithin limits levels (kind.marker :: (encodeAll fragments last ++ rest)) =
      .ok (.ofData kind (.str (joined fragments))) rest := by
  have hblob : Blob limits.maxBlobLength _ (some (joined fragments)) :=
    .fragmented (Fragment.fragments_encode hvalid hlast) hlimit
  rw [← List.append_assoc] at hblob
  exact decodeWithin_of_blob hform hblob levels rest

/-- Fragmentation: **a blob in fragments is decoded as the blob behind its length.**  Within the
limit both are a value of the kind with all the bytes, and leave what follows; so it makes no
difference where the blob was cut.  Beyond the limit both are refused before any byte that goes
past it: the blob behind its length, and of the fragments the first that is too long with those
before it. -/
theorem decodeWithin_fragmented (limits : Limits) (levels : Nat) (hform : kind.form = .blob)
    (hvalid : ∀ fragment ∈ fragments, fragment.Valid) (hlast : Number last 0) {head : Bytes}
    (hhead : Number head (joined fragments).length) (rest : Bytes) :
    ((joined fragments).length ≤ limits.maxBlobLength →
        decodeWithin limits levels (kind.marker :: (encodeAll fragments last ++ rest)) =
            .ok (.ofData kind (.str (joined fragments))) rest ∧
          decodeWithin limits levels (kind.marker :: (head ++ joined fragments ++ crlf ++ rest)) =
            .ok (.ofData kind (.str (joined fragments))) rest ∧
          ∀ (others : List Fragment) (last' : Bytes), (∀ other ∈ others, other.Valid) →
            Number last' 0 → joined others = joined fragments →
            decodeWithin limits levels (kind.marker :: (encodeAll others last' ++ rest)) =
              decodeWithin limits levels (kind.marker :: (encodeAll fragments last ++ rest))) ∧
      (limits.maxBlobLength < (joined fragments).length →
        decodeWithin limits levels (kind.marker :: (head ++ joined fragments ++ crlf ++ rest)) =
            .error (.violation (.blobTooLarge (joined fragments).length limits.maxBlobLength))
              (joined fragments ++ crlf ++ rest) ∧
          ∃ before fragment after, fragments = before ++ fragment :: after ∧
            (joined before).length ≤ limits.maxBlobLength ∧
            limits.maxBlobLength < (joined before).length + fragment.bytes.length ∧
            decodeWithin limits levels (kind.marker :: (encodeAll fragments last ++ rest)) =
              .error (.violation (.blobTooLarge ((joined before).length + fragment.bytes.length)
                  limits.maxBlobLength))
                (fragment.bytes ++ crlf ++ (after.flatMap Fragment.encode ++
                  (';'.toUInt8 :: last ++ rest)))) := by
  constructor
  · intro hlimit
    have hfragments := decodeWithin_encodeAll hform hvalid hlast hlimit levels rest
    refine ⟨hfragments, decodeWithin_of_blob hform (.bounded hhead hlimit) levels rest, ?_⟩
    intro others last' hothers hlast' hjoined
    rw [← hjoined] at hlimit
    rw [decodeWithin_encodeAll hform hothers hlast' hlimit, hfragments, hjoined]
  · intro hlimit
    have hbytes : head ++ joined fragments ++ crlf ++ rest =
        head ++ (joined fragments ++ crlf ++ rest) := by
      simp only [List.append_assoc]
    -- decoding has one round more than bytes, which is what the reader of a blob asks for
    have hrounds := Nat.lt_succ_self (encodeAll fragments last ++ rest).length
    obtain ⟨before, fragment, after, hfragments, hbefore, hpast, hrun⟩ :=
      Decoder.run_blob_encodeAll hvalid hlimit hrounds
    refine ⟨?_, before, fragment, after, hfragments, hbefore, hpast, ?_⟩
    · rw [decodeWithin_blob hform, hbytes,
        Decoder.run_blob_tooLarge hhead hlimit (Nat.lt_succ_self _)]
    · rw [decodeWithin_blob hform, hrun]

end Fragments

/-- A fragment that holds the head of another, behind a number with a leading zero, and one that
takes a terminator apart from it. -/
def deceptive : List Fragment :=
  [⟨ascii "06\r\n".toList, ascii ";1\r\nx\r".toList⟩, ⟨ascii "1\r\n".toList, [lf]⟩]

/-- The fragments of the example are fragments, although their payloads look like headers and
terminators. -/
theorem valid_deceptive : ∀ fragment ∈ deceptive, fragment.Valid := by
  have hsix : Number (ascii "06\r\n".toList) (6 : Nat) :=
    number_iff.2 ⟨false, ascii ['0', '6'], by decide, List.cons_ne_nil _ _, rfl, rfl⟩
  have hone : Number _ (1 : Nat) := number_digits (by decide)
  exact List.forall_mem_cons.2 ⟨⟨hsix, List.cons_ne_nil _ _⟩,
    List.forall_mem_singleton.2 ⟨hone, List.cons_ne_nil _ _⟩⟩

/-- Seven bytes are joined where seven are allowed.  Where six are, the blob behind its length is
refused, and the second of the fragments. -/
theorem decodeWithin_deceptive :
    (∀ fragment ∈ deceptive, fragment.Valid) ∧
      decodeWithin ⟨1, 7⟩ 0 (ascii "$?\r\n;06\r\n;1\r\nx\r\r\n;1\r\n\n\r\n;0\r\n_".toList) =
        .ok (.blobString (ascii ";1\r\nx\r\n".toList)) (ascii ['_']) ∧
      decodeWithin ⟨1, 6⟩ 0 (ascii "$7\r\n;1\r\nx\r\n\r\n_".toList) =
        .error (.violation (.blobTooLarge 7 6)) (ascii ";1\r\nx\r\n\r\n_".toList) ∧
      decodeWithin ⟨1, 6⟩ 0 (ascii "$?\r\n;06\r\n;1\r\nx\r\r\n;1\r\n\n\r\n;0\r\n_".toList) =
        .error (.violation (.blobTooLarge 7 6)) (ascii "\n\r\n;0\r\n_".toList) := by
  have hform : Kind.blobString.form = .blob := rfl
  have hlast : Number _ (0 : Nat) := number_digits (by decide)
  have hhead : Number _ (Fragment.joined deceptive).length := number_digits (by decide)
  have hseven :=
    decodeWithin_fragmented ⟨1, 7⟩ 0 hform valid_deceptive hlast hhead (ascii ['_'])
  have hsix := decodeWithin_fragmented ⟨1, 6⟩ 0 hform valid_deceptive hlast hhead (ascii ['_'])
  obtain ⟨hjoined, -⟩ := hseven.1 (by decide)
  obtain ⟨hrefused, -⟩ := hsix.2 (by decide)
  exact ⟨valid_deceptive, hjoined, hrefused, rfl⟩

end RespCodec
