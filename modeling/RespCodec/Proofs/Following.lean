/-
# Machines that follow a decoder

A machine follows a decoder if it does what the decoder does and never stops
(`Machine.Follows`).  An operation is followed if its exact result is a word, and what comes
behind it may use the word for the number that it is (`Follows.add` and its siblings).

That a result is a word is known from the bytes that were taken to come to it, so following is on
fewer than a number of bytes.  How many are left behind a reader is known from its lockstep, as
long as a source gives no more than it has (`LawfulSource`, `Decoder.Lockstep.size_lt`).
-/

import RespCodec.Proofs.Headers
import RespCodec.Proofs.Interruptions
import RespCodec.Proofs.Machine

namespace RespCodec

open Decoder (Lockstep)

variable {α β σ : Type} {n m : Nat}

/-! ## Sources that give what they have -/

/-- What a source gives is taken from what it has, and a payload is as long as was wanted. -/
class LawfulSource (σ : Type) [ByteSource σ] : Prop where
  size_byte : ∀ {s t : σ} {b : UInt8}, ByteSource.byte s = .ok b t →
    ByteSource.size t < ByteSource.size s
  size_span : ∀ {wanted : Span} {s t : σ} {text : Bytes}, ByteSource.span wanted s = .ok text t →
    text.length + ByteSource.size t ≤ ByteSource.size s
  length_payload : ∀ {length : Nat} {s t : σ} {text : Bytes},
    ByteSource.span (.payload length) s = .ok text t → text.length = length

/-- On a list of bytes a span is a front part of it, of the extent that the span has there. -/
theorem Bytes.span_eq_ok {wanted : Span} {input rest text : Bytes}
    (h : ByteSource.span wanted input = .ok text rest) :
    text.length = wanted.extent input ∧ input = text ++ rest := by
  refine Decoder.run_take_eq_ok.1 ?_
  rw [Decoder.take, Decoder.run_span, h]
  rfl

instance : LawfulSource Bytes where
  size_byte {input rest b} h := by
    cases input with
    | nil => cases h
    | cons c input =>
      cases h
      exact Nat.lt_succ_self _
  size_span h := by
    obtain ⟨-, rfl⟩ := Bytes.span_eq_ok h
    exact Nat.le_of_eq List.length_append.symm
  length_payload h := (Bytes.span_eq_ok h).1

/-- What an input gives for a span is what the list of all its bytes gives, so the sizes of lists
carry over. -/
theorem Inbound.span_bytes_eq_ok {wanted : Span} {inbound left : Inbound} {text : Bytes}
    (h : ByteSource.span wanted inbound = .ok text left) :
    ByteSource.span wanted inbound.bytes = .ok text left.bytes := by
  have hanswer : Answer inbound.script (inbound.takeSpan wanted)
      (Bytes.takeSpan wanted inbound.bytes) :=
    spanFrom_answer inbound.script wanted inbound.buffer
  have hread : inbound.takeSpan wanted = .ok text left := h
  rw [hread] at hanswer
  exact hanswer.eq_ok

instance : LawfulSource Inbound where
  size_byte h := Inbound.size_lt_of_takeByte h
  size_span {wanted inbound left text} h := by
    have hle := LawfulSource.size_span (Inbound.span_bytes_eq_ok h)
    have hsize : ByteSource.size inbound.bytes = inbound.size := inbound.length_bytes
    have hleft : ByteSource.size left.bytes = left.size := left.length_bytes
    rwa [hsize, hleft] at hle
  length_payload h := LawfulSource.length_payload (Inbound.span_bytes_eq_ok h)

/-- A decoder that takes a span asks its source for it and does nothing else. -/
theorem Decoder.span_of_run_take [ByteSource σ] {wanted : Span} {s t : σ} {text : Bytes}
    (h : (Decoder.take wanted).run s = .ok text t) : ByteSource.span wanted s = .ok text t := by
  rw [Decoder.take, run_span] at h
  cases hread : ByteSource.span wanted s with
  | error e u =>
    rw [hread] at h
    cases h
  | ok read u =>
    rw [hread] at h
    cases h
    rfl

/-- What is left behind a result of a decoder in lockstep.  The bytes that lockstep counts are
those of any lawful source, so what it says of lists it says of streams. -/
theorem Decoder.Lockstep.size_lt [ByteSource σ] [LawfulSource σ] {d d' : Decoder α}
    (h : Lockstep n m d d') {s t : σ} {a : α} (hsize : ByteSource.size s < n)
    (hrun : d.run s = .ok a t) : ByteSource.size t < m := by
  -- the size goes down where the bound does, which is at the read of a byte
  induction h generalizing s with
  | spent => exact absurd hsize (Nat.not_lt_zero _)
  | done hle =>
    cases hrun
    omega
  | refuse => cases hrun
  | byte _ ih =>
    rw [run_byte] at hrun
    cases hread : ByteSource.byte s with
    | error e u =>
      rw [hread] at hrun
      cases hrun
    | ok b u =>
      rw [hread] at hrun
      have hless := LawfulSource.size_byte hread
      exact ih b (by omega) hrun
  | span _ ih =>
    rw [run_span] at hrun
    rename_i wanted _ _ _
    cases hread : ByteSource.span wanted s with
    | error e u =>
      rw [hread] at hrun
      cases hrun
    | ok text u =>
      rw [hread] at hrun
      have hle := LawfulSource.size_span hread
      exact ih text (by omega) hrun

/-! ## Machines that follow a decoder -/

namespace Machine

variable [ByteSource σ]

/-- On fewer than `n` bytes a machine does what a decoder does, and does not stop. -/
def Follows (σ : Type) [ByteSource σ] (n : Nat) (w : Machine α) (d : Decoder α) : Prop :=
  ∀ s : σ, ByteSource.size s < n → w.run.run s = (Except.ok <$> d.run) s

/-- The run of a decoder with its result marked as one that came without a trap. -/
theorem map_run (d : Decoder α) (s : σ) :
    (Except.ok <$> d.run : EStateM Error σ (Except Trap α)) s = match d.run s with
      | .ok a t => .ok (.ok a) t
      | .error e t => .error e t := by
  show EStateM.map Except.ok d.run s = _
  rw [EStateM.map]
  cases d.run s <;> rfl

/-- Sequencing on the machine: a trap in the first part is the end of both, and so is an error. -/
theorem run_bind (w : Machine α) (f : α → Machine β) (s : σ) :
    (w >>= f).run.run s = match w.run.run s with
      | .ok (.ok a) t => (f a).run.run t
      | .ok (.error trap) t => .ok (.error trap) t
      | .error e t => .error e t := by
  show Decoder.run (Decoder.bind w.run (ExceptT.bindCont f)) s = _
  rw [Decoder.run_bind]
  cases w.run.run s with
  | error e t => rfl
  | ok result t => cases result <;> rfl

/-- Fewer than no bytes there are never, so at the end of its bytes a machine has nothing left to
show. -/
theorem follows_zero (w : Machine α) (d : Decoder α) : Follows σ 0 w d :=
  fun _ h => absurd h (Nat.not_lt_zero _)

/-- Reading computes nothing, so a machine that reads follows what it reads with. -/
theorem follows_read (d : Decoder α) : Follows σ n (read d) d := by
  intro s _
  show (d.bind fun a => Decoder.done (Except.ok a : Except Trap α)).run s = _
  rw [Decoder.run_bind, map_run]
  cases d.run s <;> rfl

/-- A result that is there follows itself. -/
theorem follows_pure (a : α) : Follows σ n (pure a) (Decoder.done a) := fun _ _ => rfl

/-- So does a refusal: it is an error of the input, not of the machine. -/
theorem follows_refuse (violation : Violation) :
    Follows σ n (refuse violation : Machine α) (Decoder.refuse violation) :=
  follows_read _

/-- A sequence follows a sequence if its parts do, the second with what is known of the result of
the first. -/
theorem Follows.bind_of {w : Machine α} {d : Decoder α} {f : α → Machine β} {g : α → Decoder β}
    {Q : α → Prop} (hd : Follows σ n w d)
    (hleft : ∀ {s t : σ} {a : α}, ByteSource.size s < n → d.run s = .ok a t →
      ByteSource.size t < m ∧ Q a)
    (hf : ∀ a, Q a → Follows σ m (f a) (g a)) : Follows σ n (w >>= f) (d.bind g) := by
  intro s hs
  rw [run_bind, hd s hs, map_run, map_run, Decoder.run_bind]
  cases hrun : d.run s with
  | error e t => rfl
  | ok a t =>
    obtain ⟨hsize, ha⟩ := hleft hs hrun
    exact (hf a ha t hsize).trans (map_run (g a) t)

section Operations

variable {f : UInt64 → Machine α} {d : Decoder α}

/-- A machine goes on with a word that is exact. -/
theorem Follows.watch {exact : Int} {word : UInt64} (hword : (word.toNat : Int) = exact)
    (hf : Follows σ n (f word) d) : Follows σ n (Machine.watch exact word >>= f) d := by
  rw [Machine.watch, if_pos hword, pure_bind]
  exact hf

/-- A sum that is a word is exact, and what comes behind it may count with it. -/
theorem Follows.add {a b : UInt64} (h : a.toNat + b.toNat < 2 ^ 64)
    (hf : ∀ c, c.toNat = a.toNat + b.toNat → Follows σ n (f c) d) :
    Follows σ n (Machine.add a b >>= f) d := by
  have hword : (a + b).toNat = a.toNat + b.toNat := by
    rw [UInt64.toNat_add, Nat.mod_eq_of_lt h]
  exact Follows.watch (by omega) (hf _ hword)

/-- One more. -/
theorem Follows.next {a : UInt64} (h : a.toNat + 1 < 2 ^ 64)
    (hf : ∀ c, c.toNat = a.toNat + 1 → Follows σ n (f c) d) :
    Follows σ n (Machine.add a 1 >>= f) d :=
  Follows.add h hf

/-- A difference is exact where the smaller is taken from the larger. -/
theorem Follows.sub {a b : UInt64} (h : b.toNat ≤ a.toNat)
    (hf : ∀ c, c.toNat = a.toNat - b.toNat → Follows σ n (f c) d) :
    Follows σ n (Machine.sub a b >>= f) d := by
  have hword : (a - b).toNat = a.toNat - b.toNat :=
    UInt64.toNat_sub_of_le a b (UInt64.le_iff_toNat_le.2 h)
  exact Follows.watch (by omega) (hf _ hword)

/-- A product that is a word is exact. -/
theorem Follows.mul {a b : UInt64} (h : a.toNat * b.toNat < 2 ^ 64)
    (hf : ∀ c, c.toNat = a.toNat * b.toNat → Follows σ n (f c) d) :
    Follows σ n (Machine.mul a b >>= f) d := by
  have hword : (a * b).toNat = a.toNat * b.toNat := by
    rw [UInt64.toNat_mul, Nat.mod_eq_of_lt h]
  exact Follows.watch (by rw [hword, Int.natCast_mul]) (hf _ hword)

/-- A signed number that is not negative leaves a bit to spare. -/
theorem Follows.word {k : Int64} (h : ¬k < 0)
    (hf : ∀ c, c.toNat = k.toInt.toNat → c.toNat < 2 ^ 63 → Follows σ n (f c) d) :
    Follows σ n (Machine.word k >>= f) d := by
  rw [Decoder.lt_zero_iff_toInt] at h
  have hlt := k.toInt_lt
  have hword : k.toUInt64.toNat = k.toInt.toNat := by
    have hcond := BitVec.toInt_eq_toNat_cond k.toBitVec
    have hbits : k.toUInt64.toNat = k.toBitVec.toNat := rfl
    rw [Int64.toInt_toBitVec] at hcond
    split at hcond <;> omega
  exact Follows.watch (by omega) (hf _ hword (by omega))

/-- A list that a word can count is counted exactly. -/
theorem Follows.size {β : Type} {items : List β} (h : items.length < 2 ^ 64)
    (hf : ∀ c, c.toNat = items.length → Follows σ n (f c) d) :
    Follows σ n (Machine.size items >>= f) d := by
  have hword : items.length.toUInt64.toNat = items.length := UInt64.toNat_ofNat_of_lt' h
  exact Follows.watch (by omega) (hf _ hword)

/-- Where the limit is kept the machine goes on, and a decoder has nothing to do there. -/
theorem Follows.within {limit k : UInt64} {f : Unit → Machine α} (h : k.toNat ≤ limit.toNat)
    (hf : Follows σ n (f ()) d) : Follows σ n (Machine.within limit k >>= f) d := by
  have hlimit : ¬limit < k := fun hlt => Nat.not_lt.2 h (UInt64.lt_iff_toNat_lt.1 hlt)
  rw [Machine.within, if_neg hlimit, pure_bind]
  exact hf

end Operations

/-! ## Sequences of readers -/

/-- A length is checked as a word as it is as a number. -/
theorem checkLength_follows (limit length : UInt64) :
    Follows σ n (checkLength limit length) (Decoder.checkLength limit.toNat length.toNat) := by
  rw [checkLength, Decoder.checkLength]
  by_cases hlt : limit < length
  · rw [if_pos hlt, if_pos (UInt64.lt_iff_toNat_lt.1 hlt)]
    exact follows_refuse _
  · rw [if_neg hlt, if_neg (mt UInt64.lt_iff_toNat_lt.2 hlt)]
    exact follows_pure ()

/-- Behind the check a length is within its limit. -/
theorem Follows.checkLength {limit length : UInt64} {f : Unit → Machine α}
    {g : Unit → Decoder α} (hf : length.toNat ≤ limit.toNat → Follows σ n (f ()) (g ())) :
    Follows σ n (Machine.checkLength limit length >>= f)
      ((Decoder.checkLength limit.toNat length.toNat).bind g) := by
  refine (checkLength_follows limit length).bind_of ?_ fun _ => hf
  intro s t _ hs hrun
  obtain ⟨hlength, rfl⟩ := Decoder.run_checkLength_eq_ok.1 hrun
  exact ⟨hs, hlength⟩

variable [LawfulSource σ]

/-- A sequence follows a sequence if its parts do, the second on what the first leaves. -/
theorem Follows.bind {w : Machine α} {d : Decoder α} {f : α → Machine β} {g : α → Decoder β}
    (hd : Follows σ n w d) (hleft : Lockstep n m d d) (hf : ∀ a, Follows σ m (f a) (g a)) :
    Follows σ n (w >>= f) (d.bind g) :=
  hd.bind_of (fun hs hrun => ⟨hleft.size_lt hs hrun, trivial⟩) fun a _ => hf a

/-- A span is not longer than what there was. -/
theorem Follows.take {wanted : Span} {f : Bytes → Machine α} {g : Bytes → Decoder α}
    (hf : ∀ text, text.length < n → Follows σ n (f text) (g text)) :
    Follows σ n (read (Decoder.take wanted) >>= f) ((Decoder.take wanted).bind g) := by
  refine (follows_read _).bind_of ?_ hf
  intro s t text hs hrun
  have hle := LawfulSource.size_span (Decoder.span_of_run_take hrun)
  omega

/-- A payload is as long as was wanted. -/
theorem Follows.payload {length : Nat} {f : Bytes → Machine α} {g : Bytes → Decoder α}
    (hf : ∀ bytes, bytes.length = length → Follows σ n (f bytes) (g bytes)) :
    Follows σ n (read (Decoder.payload length) >>= f) ((Decoder.payload length).bind g) := by
  refine (follows_read _).bind_of ?_ hf
  intro s t bytes hs hrun
  refine ⟨(Decoder.payload_lockstep length).size_lt hs hrun, ?_⟩
  obtain ⟨_, _, htake, hrest⟩ := Decoder.run_bind_eq_ok.1 hrun
  obtain ⟨_, _, _, hdone⟩ := Decoder.run_bind_eq_ok.1 hrest
  cases hdone
  exact LawfulSource.length_payload (Decoder.span_of_run_take htake)

end Machine
end RespCodec
