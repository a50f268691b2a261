/-
# Words are enough

The machine of `RespCodec.Proofs.Machine` has words where a decoder has numbers, and stops where
a word is not exact or a limit is not kept.  It never stops (`decode_untrapped`), on any input
that a word can count with a bit to spare.

Every counter is paid for by bytes.  A digit, a fragment, an element of a stream and a level of
nesting take a byte each, so a counter and the bytes that are left are a word together, and that
is what each reader hands on.  Elements by count are as many as a length says, twice at most.
What fragments hold is within the limit in front of each of them (`Machine.fragmentsFrom_follows`),
and with the next length, which is a signed number, it is a word.

Limits are kept whatever a source answers (`RespCodec.Proofs.Requests`).
-/

import RespCodec.Proofs.Following
import RespCodec.Proofs.Requests

namespace RespCodec
namespace Machine

open Decoder (Lockstep)

variable {σ : Type} [ByteSource σ] {n m : Nat} {bounds : Bounds} {depth : UInt64}

/-! ## Elements -/

/-- An element is read as a decoder reads it, and takes a byte or more. -/
def ElementFollows (σ : Type) [ByteSource σ] (n : Nat) (element : Machine Value)
    (element' : Decoder Value) : Prop :=
  ∀ l ≤ n, Follows σ l element element' ∧ Lockstep l (l - 1) element' element'

/-- Elements are read one level deeper, unless the depth is at its limit. -/
inductive ElementsFollow (σ : Type) [ByteSource σ] (bounds : Bounds) (n : Nat) (depth : UInt64) :
    Option (UInt64 → Machine Value) → Option (Thunk (Decoder Value)) → Prop
  | none (h : depth.toNat = bounds.maxDepth.toNat) : ElementsFollow σ bounds n depth none none
  | some {element : UInt64 → Machine Value} {element' : Thunk (Decoder Value)}
    (h : depth.toNat < bounds.maxDepth.toNat)
    (helement : ∀ inner : UInt64, inner.toNat = depth.toNat + 1 →
      ElementFollows σ n (element inner) element'.get) :
    ElementsFollow σ bounds n depth (some element) (some element')

variable {element? : Option (UInt64 → Machine Value)} {element?' : Option (Thunk (Decoder Value))}

/-- With fewer bytes to read, elements are followed still. -/
theorem ElementsFollow.mono (h : ElementsFollow σ bounds n depth element? element?')
    (hm : m ≤ n) : ElementsFollow σ bounds m depth element? element?' := by
  cases h with
  | none h => exact .none h
  | some h helement =>
    exact .some h fun inner hinner l hl => helement inner hinner l (Nat.le_trans hl hm)

/-- Elements that are followed take a byte or more, which is what the body around them needs to
know. -/
theorem ElementsFollow.lockstep (h : ElementsFollow σ bounds n depth element? element?')
    (hdepth : depth.toNat + 1 < 2 ^ 64) : Decoder.ElementsLockstep n element?' element?' := by
  cases h with
  | none => exact .none
  | some _ helement =>
    refine .some fun l hl => (helement (depth + 1) ?_ l hl).2
    rw [UInt64.toNat_add, UInt64.toNat_one, Nat.mod_eq_of_lt hdepth]

/-! ## Fields -/

variable [LawfulSource σ]

/-- Each digit takes a byte.  By induction on the bytes: the digits counted and the bytes left
are a word together. -/
theorem headerFrom_follows {rounds : Nat} (h : n ≤ rounds) {numeral : Numeral}
    (hdigits : numeral.digits.toNat + n < 2 ^ 64) :
    Follows σ n (headerFrom rounds numeral) (Decoder.headerFrom rounds numeral.counted) := by
  induction n generalizing rounds numeral with
  | zero => exact follows_zero _ _
  | succ n ih =>
    obtain ⟨rounds, rfl, hleft⟩ := Decoder.exists_round h
    refine (follows_read Decoder.nextByte).bind Decoder.nextByte_lockstep fun b => ?_
    cases hdigit : Decimal.digit? b with
    | some digit =>
      dsimp only
      cases hpush : numeral.counted.push? digit with
      | none => exact follows_refuse _
      | some next =>
        refine Follows.next (by omega) fun digits hnext => ?_
        obtain ⟨-, -, rfl⟩ := Decoder.Numeral.push?_eq_some_iff.1 hpush
        have hcounted : numeral.counted.digits + 1 = digits.toNat := hnext.symm
        rw [hcounted]
        exact ih hleft (by dsimp only; omega)
    | none =>
      dsimp only
      split
      · refine (follows_read _).bind (Decoder.expect_lockstep lf) fun _ => ?_
        cases numeral.counted.value? with
        | none => exact follows_refuse _
        | some k => exact follows_pure _
      split
      · exact ih hleft (by dsimp only; omega)
      split
      · exact (follows_read _).bind Decoder.terminator_lockstep fun _ => follows_pure _
      · exact follows_refuse _

/-- Before the first digit the counter is at zero, so the bytes alone have to be a word. -/
theorem header_follows {rounds : Nat} (h : n ≤ rounds) (hn : n < 2 ^ 64) :
    Follows σ n (header rounds) (Decoder.header rounds) :=
  headerFrom_follows h (by rwa [Numeral.start, UInt64.toNat_zero, Nat.zero_add])

/-- A number is a header that was not left open. -/
theorem number_follows {rounds : Nat} (h : n ≤ rounds) (hn : n < 2 ^ 64) (marker : UInt8) :
    Follows σ n (number rounds marker) (Decoder.number rounds marker) := by
  refine (header_follows h hn).bind (Decoder.header_lockstep h h) fun header => ?_
  cases header with
  | number k => exact follows_pure k
  | streamed => exact follows_refuse _

/-- The window does not wrap, as the limit has a bit to spare for the terminator. -/
theorem toNat_window {limit : UInt64} (h : limit.toNat < 2 ^ 63) :
    (window limit).toNat = limit.toNat + 2 := by
  have htwo : (2 : UInt64).toNat = 2 := rfl
  have hsum : (limit + 2).toNat = limit.toNat + 2 := by
    rw [UInt64.toNat_add, htwo, Nat.mod_eq_of_lt (by omega)]
  have hwraps : ¬limit + 2 < limit := by
    rw [UInt64.lt_iff_toNat_lt, hsum]
    omega
  rw [window, if_neg hwraps, hsum]

/-- Two bytes are cut off a text that has them. -/
theorem take_eq_dropLast {text : Bytes} (h : text.dropLast ≠ []) :
    2 ≤ text.length ∧ text.take (text.length - 2) = text.dropLast.dropLast := by
  have hpos := List.length_pos_iff.2 h
  rw [List.length_dropLast] at hpos
  refine ⟨by omega, ?_⟩
  rw [List.dropLast_eq_take, List.dropLast_eq_take, List.take_take, List.length_take]
  congr 1
  omega

/-- Behind both checks the line has the two bytes that are cut off it. -/
theorem line_follows {limit : UInt64} (hlimit : limit.toNat < 2 ^ 63) (hn : n ≤ 2 ^ 64) :
    Follows σ n (line limit) (Decoder.line limit.toNat) := by
  unfold line
  rw [toNat_window hlimit]
  refine Follows.take fun text htext => ?_
  refine Follows.size (by omega) fun length hlength => ?_
  split
  · rw [hlength]
    exact follows_refuse _
  split
  · exact follows_refuse _
  rename_i hcr
  have htwo : (2 : UInt64).toNat = 2 := rfl
  -- the line ends in a return and a line feed, so there are two bytes to cut off
  have hne : text.dropLast ≠ [] := by
    intro hnil
    rw [hnil] at hcr
    exact hcr nofun
  obtain ⟨hle, htake⟩ := take_eq_dropLast hne
  refine Follows.sub (by omega) fun kept hkept => ?_
  rw [hkept, hlength, htwo, htake]
  exact follows_pure _

/-- What is held is within the limit in front of every fragment, and each of them takes a byte. -/
theorem fragmentsFrom_follows {limit : UInt64} (hlimit : limit.toNat < 2 ^ 63)
    {headerRounds rounds : Nat} (hheader : n ≤ headerRounds) (h : n ≤ rounds) {fragments : UInt64}
    (hfragments : fragments.toNat + n < 2 ^ 64) {collected : Bytes}
    (hcollected : collected.length ≤ limit.toNat) :
    Follows σ n (fragmentsFrom limit headerRounds rounds fragments collected)
      (Decoder.fragmentsFrom limit.toNat headerRounds rounds collected) := by
  induction n generalizing rounds fragments collected with
  | zero => exact follows_zero _ _
  | succ n ih =>
    obtain ⟨rounds, rfl, hleft⟩ := Decoder.exists_round h
    have hheader' := Nat.le_of_succ_le hheader
    refine Follows.size (by omega) fun held hheld => ?_
    refine Follows.within (by omega) ?_
    refine (follows_read _).bind (Decoder.expect_lockstep _) fun _ => ?_
    rw [Nat.add_sub_cancel]
    refine (header_follows hheader' (by omega)).bind
      (Decoder.header_lockstep hheader' hheader') fun header => ?_
    cases header with
    | streamed => exact follows_refuse _
    | number k =>
      dsimp only
      split
      · exact follows_refuse _
      rename_i hneg
      split
      · exact follows_pure collected
      refine Follows.word hneg fun length hlength hspare => ?_
      -- both have a bit to spare: what is held is within the limit, the next is a signed number
      refine Follows.add (by omega) fun total htotal => ?_
      rw [← hlength, ← hheld, ← htotal]
      refine Follows.checkLength fun hwithin => ?_
      refine Follows.within hwithin ?_
      refine Follows.payload fun fragment hfragment => ?_
      refine Follows.next (by omega) fun fragments' hcount => ?_
      refine ih hheader' hleft (by omega) ?_
      rw [List.length_append]
      omega

/-- A length that passes its check is within the limit, and fragments start with none held. -/
theorem blob_follows {limit : UInt64} (hlimit : limit.toNat < 2 ^ 63) {rounds : Nat}
    (h : n ≤ rounds) (hn : n < 2 ^ 64) :
    Follows σ n (blob limit rounds) (Decoder.blob limit.toNat rounds) := by
  refine (header_follows h hn).bind (Decoder.header_lockstep h h) fun header => ?_
  cases header with
  | streamed =>
    have hzero : (0 : UInt64).toNat = 0 := rfl
    refine (fragmentsFrom_follows hlimit h h (by omega) (Nat.zero_le _)).bind
      (Decoder.fragmentsFrom_lockstep h h h h []) fun bytes => ?_
    exact follows_pure _
  | number k =>
    dsimp only
    split
    · exact follows_pure none
    rename_i hneg
    refine Follows.word hneg fun length hlength _ => ?_
    rw [← hlength]
    refine Follows.checkLength fun hwithin => ?_
    refine Follows.within hwithin ?_
    exact Follows.payload fun bytes _ => follows_pure _

/-! ## Aggregates -/

section Elements

variable {element : Machine Value} {element' : Decoder Value}

/-- What is held and what is left are a word together, as they are the count. -/
theorem elementsFrom_follows (helement : ElementFollows σ n element element') {left : Nat}
    {held : UInt64} (hheld : held.toNat + left < 2 ^ 64) (items : List Value) :
    Follows σ n (elementsFrom element left held items)
      (Decoder.elementsFrom element' left items) := by
  induction left generalizing held items with
  | zero => exact follows_pure _
  | succ left ih =>
    obtain ⟨hfollows, hlock⟩ := helement n (Nat.le_refl n)
    refine hfollows.bind (hlock.mono (Nat.le_refl n) (Nat.sub_le n 1)) fun value => ?_
    refine Follows.next (by omega) fun held' hnext => ?_
    exact ih (by omega) (value :: items)

/-- A remainder of words is zero if that of the numbers is. -/
theorem mod_eq_zero_iff_toNat {a b : UInt64} : a % b = 0 ↔ a.toNat % b.toNat = 0 := by
  rw [← UInt64.toNat_inj, UInt64.toNat_mod, UInt64.toNat_zero]

/-- Each element of a stream takes a byte.  By induction on the bytes: what is held and the
bytes left are a word together. -/
theorem elementsToEnd_follows {perEntry : UInt64} {rounds : Nat} (h : n ≤ rounds)
    (helement : ElementFollows σ n element element') {held : UInt64} {items : List Value}
    (hheld : held.toNat = items.length) (hn : held.toNat + n < 2 ^ 64) :
    Follows σ n (elementsToEnd perEntry element rounds held items)
      ((Decoder.elementsToEnd element' rounds items).bind fun items =>
        if items.length % perEntry.toNat = 0 then Decoder.done (.elements items)
        else Decoder.refuse (.oddMapLength items.length)) := by
  induction n generalizing rounds held items with
  | zero => exact follows_zero _ _
  | succ n ih =>
    obtain ⟨rounds, rfl, hleft⟩ := Decoder.exists_round h
    obtain ⟨hfollows, hlock⟩ := helement (n + 1) (Nat.le_refl _)
    -- the machine checks the number of elements in its last round, the decoder behind the loop
    rw [Decoder.elementsToEnd, Decoder.bind_eq, Decoder.bind_assoc]
    refine hfollows.bind hlock fun value => ?_
    rw [Nat.add_sub_cancel]
    by_cases hend : value.kind = .endOfStream
    · rw [if_pos hend, if_pos hend, Decoder.pure_eq_done, Decoder.bind, List.length_reverse,
        ← hheld]
      by_cases hwhole : held % perEntry = 0
      · rw [if_pos hwhole, if_pos (mod_eq_zero_iff_toNat.1 hwhole)]
        exact follows_pure _
      · rw [if_neg hwhole, if_neg (mt mod_eq_zero_iff_toNat.2 hwhole)]
        exact follows_refuse _
    · rw [if_neg hend, if_neg hend]
      refine Follows.next (by omega) fun held' hnext => ?_
      refine ih hleft (fun l hl => helement l (Nat.le_succ_of_le hl)) ?_ (by omega)
      rw [List.length_cons]
      omega

/-- The count of elements is a word, as a length is a number that is not negative. -/
theorem aggregate_follows {rounds : Nat} (h : n ≤ rounds) (hn : n < 2 ^ 64)
    (helement : ElementFollows σ n element element') {perEntry : Nat}
    (hentry : perEntry = 1 ∨ perEntry = 2) :
    Follows σ n (aggregate perEntry.toUInt64 rounds element)
      (Decoder.aggregate perEntry rounds element') := by
  have hword : perEntry.toUInt64.toNat = perEntry := by
    rcases hentry with rfl | rfl <;> rfl
  have hzero : (0 : UInt64).toNat = 0 := rfl
  refine (header_follows h hn).bind (Decoder.header_lockstep h h) fun header => ?_
  cases header with
  | number k =>
    dsimp only
    split
    · exact follows_pure _
    rename_i hneg
    refine Follows.word hneg fun length hlength hspare => ?_
    -- a length has a bit to spare, which the factor of two takes up
    refine Follows.mul ?_ fun count hcount => ?_
    · rw [hword]
      rcases hentry with rfl | rfl <;> omega
    rw [hword] at hcount
    rw [← hlength, ← hcount]
    have hcounted := count.toNat_lt
    refine (elementsFrom_follows helement (by omega) []).bind
      (Decoder.elementsFrom_lockstep (fun l hl => (helement l hl).2) _ []) fun items => ?_
    exact follows_pure _
  | streamed =>
    have hfollows : Follows σ n (elementsToEnd perEntry.toUInt64 element rounds 0 []) _ :=
      elementsToEnd_follows h helement hzero (by omega)
    rwa [hword] at hfollows

end Elements

/-! ## Units -/

/-- A depth is a word if a byte was taken at every level. -/
theorem body_follows {rounds : Nat} (hblob : bounds.maxBlobLength.toNat < 2 ^ 63) (h : n ≤ rounds)
    (hdepth : depth.toNat + n + 1 < 2 ^ 64)
    (helements : ElementsFollow σ bounds n depth element? element?') (kind : Kind) :
    Follows σ n (body bounds rounds depth element? kind)
      (Decoder.body bounds.limits rounds element?' kind) := by
  unfold body Decoder.body
  cases hform : kind.form with
  | line =>
    refine (line_follows hblob (by omega)).bind (Decoder.line_lockstep _) fun text => ?_
    exact follows_pure _
  | blob =>
    refine (blob_follows hblob h (by omega)).bind (Decoder.blob_lockstep h h _) fun bytes? => ?_
    cases bytes? with
    | none => exact follows_pure _
    | some bytes => exact follows_pure _
  | integer =>
    refine (number_follows h (by omega) _).bind (Decoder.number_lockstep h h _) fun value => ?_
    exact follows_pure _
  | bare => exact (follows_read _).bind Decoder.terminator_lockstep fun _ => follows_pure _
  | boolean => exact follows_read _
  | aggregate perEntry =>
    refine Follows.next (by omega) fun inner hinner => ?_
    cases helements with
    | none hlimit =>
      rw [if_pos (UInt64.lt_iff_toNat_lt.2 (by omega))]
      exact follows_refuse _
    | some hlimit helement =>
      rw [if_neg (mt UInt64.lt_iff_toNat_lt.1 (by omega))]
      exact aggregate_follows h (by omega) (helement inner hinner)
        (Decoder.perEntry_of_form hform)

/-- The marker of a unit takes a byte before anything is read a level deeper. -/
theorem unitBehind_follows {bodyRounds rounds : Nat}
    (hblob : bounds.maxBlobLength.toNat < 2 ^ 63) (hbody : n ≤ bodyRounds) (h : n ≤ rounds)
    (hdepth : depth.toNat + n < 2 ^ 64)
    (helements : ElementsFollow σ bounds (n - 1) depth element? element?')
    (pending : Option Value) :
    Follows σ n (unitBehind bounds bodyRounds depth element? rounds pending)
      (Decoder.unitBehind bounds.limits bodyRounds element?' rounds pending) := by
  induction n generalizing rounds pending with
  | zero => exact follows_zero _ _
  | succ n ih =>
    obtain ⟨rounds, rfl, hleft⟩ := Decoder.exists_round h
    have hbody' := Nat.le_of_succ_le hbody
    -- the marker is the byte that the level below counts on
    rw [Nat.add_sub_cancel] at helements
    refine (follows_read Decoder.nextByte).bind Decoder.nextByte_lockstep fun b => ?_
    cases Kind.ofMarker? b with
    | none => exact follows_refuse _
    | some kind =>
      refine (body_follows hblob hbody' (by omega) helements kind).bind
        (Decoder.body_lockstep hbody' hbody' (helements.lockstep (by omega)) kind) fun data => ?_
      split
      · exact ih hbody' hleft (by omega) (helements.mono (Nat.sub_le n 1)) _
      · exact follows_pure _

/-- A unit at a depth is read as one for which the levels are left that the depth leaves.  By
induction on the levels, while depth and levels together stay the limit. -/
theorem unit_follows {rounds levels : Nat} (hblob : bounds.maxBlobLength.toNat < 2 ^ 63)
    (h : n ≤ rounds) (hdepth : depth.toNat + n < 2 ^ 64)
    (hlevels : depth.toNat + levels = bounds.maxDepth.toNat) :
    Follows σ n (unit bounds rounds levels depth) (Decoder.unit bounds.limits rounds levels) := by
  induction levels generalizing n depth with
  | zero =>
    refine Follows.within (by omega) ?_
    exact unitBehind_follows hblob h h hdepth (.none hlevels) none
  | succ levels ih =>
    refine Follows.within (by omega) ?_
    refine unitBehind_follows hblob h h hdepth (.some (by omega) fun inner hinner l hl => ?_) none
    have hl' := Nat.le_trans (Nat.le_trans hl (Nat.sub_le n 1)) h
    refine ⟨?_, Decoder.unit_lockstep hl' hl' bounds.limits levels⟩
    -- the marker around the element makes up for the level below it
    cases l with
    | zero => exact follows_zero _ _
    | succ l => exact ih hl' (by omega) (by omega)

end Machine

/-- **A decoder computes with words what it computes with numbers,** and its limits bound what it
asks for.  On a machine of 64-bit words, with a blob limit that leaves a bit to spare and any
limit of depth, every sum, difference, product and conversion is exact, on bytes and as a stream
delivers them: no length, count or depth wraps, and lengths and depths keep their limits.  No span
that is asked for is beyond them, and an integer overflow is always that of a header. -/
theorem decode_untrapped {bounds : Machine.Bounds} (hblob : bounds.maxBlobLength.toNat < 2 ^ 63) :
    (∀ input : Bytes, input.length < 2 ^ 63 →
      Machine.decode bounds input = (Except.ok <$> decode bounds.limits) input) ∧
    (∀ inbound : Inbound, inbound.size < 2 ^ 63 →
      Machine.decode bounds inbound = (Except.ok <$> decode bounds.limits) inbound) ∧
    (∀ rounds levels, Decoder.Asks bounds.limits (Decoder.unit bounds.limits rounds levels)) ∧
    ∀ input rest, decode bounds.limits input = .error (.violation .integerOverflow) rest →
      Decoder.HeaderOverflows (input.length + 1) input rest := by
  have hfollows {σ : Type} [ByteSource σ] [LawfulSource σ] (s : σ)
      (hsize : ByteSource.size s < 2 ^ 63) :
      Machine.decode bounds s = (Except.ok <$> decode bounds.limits) s :=
    Machine.unit_follows hblob (Nat.le_refl _) (by rw [UInt64.toNat_zero]; omega)
      (Nat.zero_add _) s (Nat.lt_succ_self _)
  refine ⟨hfollows, hfollows, fun rounds levels => ?_, fun input rest h => ?_⟩
  · exact (Decoder.bounded_unit bounds.limits rounds levels).asks
  · exact (Decoder.bounded_unit bounds.limits _ _).overflows h

/-- A limit of depth that no addition may go beyond, and the largest blob limit with a bit to
spare. -/
def utmost : Machine.Bounds := ⟨0xffffffffffffffff, 0x7fffffffffffffff⟩

/-- Two bytes in a fragment, and the announcement of as many as a length can say. -/
def brimming : Bytes := ascii "*1\r\n$?\r\n;2\r\nhi\r\n;9223372036854775807\r\n".toList

/-- As many entries as a length can say, and in the first of them one element more. -/
def overcounted : Bytes := ascii "%9223372036854775807\r\n*9223372036854775808\r\n".toList

/-- A blob in an array, of which some has arrived. -/
def underWay : Inbound :=
  ⟨ascii "*1\r\n$".toList, [.chunk (ascii "1\r\nx".toList), .chunk (ascii "\r\n+".toList)]⟩

/-- The fragments are beyond the limit and not beyond a word.  The elements of the entries are a
word as well, and the header behind them overflows. -/
theorem decode_brimming :
    Machine.decode utmost brimming =
        .error (.violation (.blobTooLarge 0x8000000000000001 0x7fffffffffffffff)) [] ∧
      Machine.decode utmost underWay =
        .ok (.ok (.array [.blobString (ascii ['x'])])) ⟨ascii ['+'], []⟩ ∧
      Machine.decode utmost overcounted = .error (.violation .integerOverflow) crlf ∧
      Decoder.HeaderOverflows (overcounted.length + 1) overcounted crlf := by
  have hblob : utmost.maxBlobLength.toNat < 2 ^ 63 := by decide
  obtain ⟨hbytes, hinbound, -, hoverflows⟩ := decode_untrapped hblob
  refine ⟨(hbytes brimming (by decide)).trans rfl, (hinbound underWay (by decide)).trans rfl,
    (hbytes overcounted (by decide)).trans rfl, hoverflows overcounted crlf rfl⟩

end RespCodec
