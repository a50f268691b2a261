/-
# Interruptions

A read that was interrupted may be made again, and a decoder makes it again almost everywhere.
A span is taken patiently from its first delivery to its last (`Inbound.spanFrom_patient`).  A
byte is read in two steps, and only the first of them is patient (`Inbound.ByteReading`):

| in front of a byte | what the read comes to |
| --- | --- |
| interruptions | they are passed over |
| a pause, then bytes | the first of them |
| a pause, then a pause or nothing | the end of the input |
| a pause, then an interruption | the interruption |

where a pause is a delivery of no bytes.  So there is one situation in which an interruption is
reported, and the script tells where it can arise: where an interruption stands directly behind
a pause.  `stalls` counts these places.  Calls pass each of them once, so they report no more
interruptions than there are (`Inbound.readings_interrupted`), and none if every interruption
stands elsewhere.

Where one is reported inside a value, what was read of the value is gone
(`Inbound.readings_halting`).
-/

import RespCodec.Proofs.Arrival
import RespCodec.Proofs.Lockstep

namespace RespCodec

/-! ## Interruptions in errors and in scripts -/

/-- The error is that a read was interrupted. -/
def Error.isInterruption : Error → Bool
  | stream e => e.kind == .interrupted
  | _ => false

/-- The call reported that a read was interrupted. -/
def Reading.isInterrupted (reading : Reading) : Bool :=
  match reading.outcome with
  | .ok _ => false
  | .error e => e.isInterruption

/-- Of all stream errors only faults are interruptions. -/
theorem StreamError.kind_eq_interrupted_iff {e : StreamError} :
    e.kind = .interrupted ↔ ∃ f, e = .fault f ∧ f.isInterruption = true := by
  cases e <;> simp [StreamError.kind, Fault.isInterruption]

/-- The delivery only asks for the read to be made again. -/
def Delivery.isInterruption : Delivery → Bool
  | chunk _ => false
  | fault f => f.isInterruption

/-- In how many places of a script an interruption stands directly behind a pause. -/
def stalls : List Delivery → Nat
  | [] => 0
  | delivery :: script =>
    (if delivery = .chunk [] ∧ script.head?.any (·.isInterruption) then 1 else 0) + stalls script

/-- Bytes that arrive are no stall. -/
theorem stalls_chunk {bytes : Bytes} (h : bytes ≠ []) (script : List Delivery) :
    stalls (.chunk bytes :: script) = stalls script := by
  simp [stalls, h]

/-- A pause with an interruption right behind it is one. -/
theorem stalls_stall {f : Fault} (h : f.isInterruption = true) (script : List Delivery) :
    stalls (.chunk [] :: .fault f :: script) = stalls script + 1 := by
  simp [stalls, Delivery.isInterruption, h, Nat.add_comm]

/-- The rest of a script has no more of these places than the script. -/
theorem stalls_le_of_suffix {front script : List Delivery} (h : front <:+ script) :
    stalls front ≤ stalls script := by
  obtain ⟨skipped, rfl⟩ := h
  induction skipped with
  | nil => exact Nat.le_refl _
  | cons delivery skipped ih => exact Nat.le_trans ih (Nat.le_add_left _ _)

/-- Cutting leaves at least one piece, so no delivery is lost on the way through a buffer. -/
theorem pieces_ne_nil (capacity : Nat) (bytes : Bytes) : pieces capacity bytes ≠ [] := by
  rw [pieces]
  split
  · exact List.cons_ne_nil _ _
  · exact List.cons_ne_nil _ _

/-- The first part of a delivery is an interruption if the delivery is one. -/
theorem Delivery.head?_split_append (capacity : Nat) (delivery : Delivery)
    (script : List Delivery) :
    (delivery.split capacity ++ script).head?.any (·.isInterruption) = delivery.isInterruption := by
  cases delivery with
  | fault f => rfl
  | chunk bytes =>
    obtain ⟨piece, others, hpieces⟩ := List.exists_cons_of_ne_nil (pieces_ne_nil capacity bytes)
    rw [split, hpieces]
    rfl

/-- What a script starts with, an interruption or something else, is not changed by cutting its
deliveries. -/
theorem head?_flatMap_split (capacity : Nat) (script : List Delivery) :
    (script.flatMap (·.split capacity)).head?.any (·.isInterruption) =
      script.head?.any (·.isInterruption) := by
  cases script with
  | nil => rfl
  | cons delivery script => exact delivery.head?_split_append capacity _

/-- Bytes in front of a script add no stalls, in however many deliveries they come. -/
theorem stalls_chunks {parts : List Bytes} (h : ∀ part ∈ parts, part ≠ [])
    (script : List Delivery) : stalls (parts.map .chunk ++ script) = stalls script := by
  induction parts with
  | nil => rfl
  | cons part parts ih =>
    obtain ⟨hpart, hparts⟩ := List.forall_mem_cons.1 h
    rw [List.map_cons, List.cons_append, stalls_chunk hpart, ih hparts]

/-- However a script is cut to the capacity of a buffer, it has the same of these places.  A
delivery of bytes may become several, none of them empty, while pauses and faults stay what they
are. -/
theorem stalls_flatMap_split (capacity : Nat) (script : List Delivery) :
    stalls (script.flatMap (·.split capacity)) = stalls script := by
  induction script with
  | nil => rfl
  | cons delivery script ih =>
    rw [List.flatMap_cons]
    match delivery with
    | .fault f =>
      show stalls (.fault f :: script.flatMap (·.split capacity)) = _
      rw [stalls, stalls, ih, head?_flatMap_split]
    | .chunk [] =>
      -- a pause is not cut
      have hsplit : Delivery.split capacity (.chunk []) = [.chunk []] :=
        Delivery.split_of_size_le (Nat.zero_le capacity)
      rw [hsplit, List.singleton_append, stalls, stalls, ih, head?_flatMap_split]
    | .chunk (b :: bytes) =>
      have hne : b :: bytes ≠ [] := List.cons_ne_nil b bytes
      rw [stalls_chunk hne, ← ih]
      exact stalls_chunks (fun part hpart => Inbound.ne_nil_of_mem_pieces hne hpart) _

namespace Inbound

/-- A buffer of any room leaves the stalls of a script as they are: it cuts bytes, and neither
pauses nor faults. -/
theorem stalls_ofScript {capacity : Nat} (h : 1 ≤ capacity) (script : List Delivery) :
    stalls (ofScript capacity script).script = stalls script := by
  rw [ofScript, if_neg (Nat.pos_iff_ne_zero.1 h)]
  exact stalls_flatMap_split capacity script

/-! ## Single reads -/

/-- What the read of a byte comes to, by the deliveries in front of it. -/
inductive ByteReading : List Delivery → EStateM.Result StreamError Inbound UInt8 → Prop
  | ended : ByteReading [] (.error .endOfStream ⟨[], []⟩)
  | found (b : UInt8) (bytes : Bytes) (script : List Delivery) :
    ByteReading (.chunk (b :: bytes) :: script) (.ok b ⟨bytes, script⟩)
  | repeated {f : Fault} {script : List Delivery} {r : EStateM.Result StreamError Inbound UInt8}
    (hf : f.isInterruption = true) (h : ByteReading script r) : ByteReading (.fault f :: script) r
  | failed {f : Fault} (hf : ¬f.isInterruption = true) (script : List Delivery) :
    ByteReading (.fault f :: script) (.error (.fault f) ⟨[], script⟩)
  | endedBehindPause : ByteReading [.chunk []] (.error .endOfStream ⟨[], []⟩)
  | paused (script : List Delivery) :
    ByteReading (.chunk [] :: .chunk [] :: script) (.error .endOfStream ⟨[], script⟩)
  | foundBehindPause (b : UInt8) (bytes : Bytes) (script : List Delivery) :
    ByteReading (.chunk [] :: .chunk (b :: bytes) :: script) (.ok b ⟨bytes, script⟩)
  /-- Behind a pause no fault is passed over, not even an interruption. -/
  | failedBehindPause (f : Fault) (script : List Delivery) :
    ByteReading (.chunk [] :: .fault f :: script) (.error (.fault f) ⟨[], script⟩)

/-- Taking a byte comes to one of the ways of `ByteReading`, for every script. -/
theorem takeByte_reading (script : List Delivery) : ByteReading script (takeByte ⟨[], script⟩) := by
  induction script with
  | nil => exact .ended
  | cons delivery script ih =>
    -- a pause is read again at once, so what it comes to depends on the delivery behind it
    match delivery, script with
    | .chunk (b :: bytes), script => exact .found b bytes script
    | .chunk [], [] => exact .endedBehindPause
    | .chunk [], .chunk [] :: script => exact .paused script
    | .chunk [], .chunk (b :: bytes) :: script => exact .foundBehindPause b bytes script
    | .chunk [], .fault f :: script => exact .failedBehindPause f script
    | .fault f, script =>
      by_cases hf : f.isInterruption = true
      · rw [takeByte_interruption hf]
        exact .repeated hf ih
      · rw [takeByte_fault hf]
        exact .failed hf script

/-- Whichever way it comes to, what is left of the script is an end of it. -/
theorem ByteReading.suffix {script : List Delivery}
    {r : EStateM.Result StreamError Inbound UInt8} (h : ByteReading script r) :
    (stateAfter r).script <:+ script := by
  induction h with
  | ended => exact List.suffix_rfl
  | found | failed | endedBehindPause => exact List.suffix_cons ..
  | repeated _ _ ih => exact ih.trans (List.suffix_cons ..)
  | paused | foundBehindPause | failedBehindPause =>
    exact (List.suffix_cons ..).trans (List.suffix_cons ..)

/-- So taking a byte uses a script up from the front, with bytes in the buffer or without. -/
theorem takeByte_suffix (inbound : Inbound) :
    (stateAfter inbound.takeByte).script <:+ inbound.script := by
  obtain ⟨buffer, script⟩ := inbound
  cases buffer with
  | nil => exact (takeByte_reading script).suffix
  | cons b rest => exact List.suffix_rfl

/-- An interruption is reported in one place only: behind a pause, which interruptions may have
gone before.  By induction on the reading, as each interruption passed over is one more of those
in front. -/
theorem ByteReading.exists_waits {script : List Delivery} {f : Fault} {left : Inbound}
    (h : ByteReading script (.error (.fault f) left)) (hf : f.isInterruption = true) :
    left.buffer = [] ∧ ∃ waits : List Delivery,
      (∀ delivery ∈ waits, delivery.isInterruption = true) ∧
        script = waits ++ .chunk [] :: .fault f :: left.script := by
  generalize hr : EStateM.Result.error (StreamError.fault f) left = r at h
  induction h with
  | ended | found | endedBehindPause | paused | foundBehindPause => cases hr
  | failed hg =>
    cases hr
    exact absurd hf hg
  | failedBehindPause =>
    cases hr
    exact ⟨rfl, [], List.forall_mem_nil _, rfl⟩
  | repeated hg _ ih =>
    obtain ⟨hbuffer, waits, hwaits, hscript⟩ := ih hr
    exact ⟨hbuffer, .fault _ :: waits, List.forall_mem_cons.2 ⟨hg, hwaits⟩, congrArg _ hscript⟩

/-- Any number of interruptions in front of a byte are passed over. -/
theorem takeByte_waits {waits : List Delivery}
    (h : ∀ delivery ∈ waits, delivery.isInterruption = true) (script : List Delivery) :
    takeByte ⟨[], waits ++ script⟩ = takeByte ⟨[], script⟩ := by
  induction waits with
  | nil => rfl
  | cons delivery waits ih =>
    obtain ⟨hdelivery, hwaits⟩ := List.forall_mem_cons.1 h
    cases delivery with
    | chunk bytes => cases hdelivery
    | fault f => rw [List.cons_append, takeByte_interruption hdelivery, ih hwaits]

/-- The read of a byte reports an interruption where it passed over others, met a pause, and
then this one directly behind. -/
theorem takeByte_interrupted_iff {f : Fault} (hf : f.isInterruption = true)
    {inbound left : Inbound} :
    inbound.takeByte = .error (.fault f) left ↔
      inbound.buffer = [] ∧ left.buffer = [] ∧ ∃ waits : List Delivery,
        (∀ delivery ∈ waits, delivery.isInterruption = true) ∧
          inbound.script = waits ++ .chunk [] :: .fault f :: left.script := by
  obtain ⟨buffer, script⟩ := inbound
  constructor
  · intro h
    cases buffer with
    | cons b rest => cases h
    | nil => exact ⟨rfl, (h ▸ takeByte_reading script).exists_waits hf⟩
  · obtain ⟨buffer', script'⟩ := left
    rintro ⟨rfl, rfl, waits, hwaits, rfl⟩
    exact takeByte_waits hwaits _

/-- A read that lasts through interruptions: it reports none. -/
inductive Patient (script : List Delivery) : EStateM.Result StreamError Inbound Bytes → Prop
  | ok {text : Bytes} {left : Inbound} (h : left.script <:+ script) : Patient script (.ok text left)
  | error {e : StreamError} {left : Inbound} (h : left.script <:+ script)
    (he : e.kind ≠ .interrupted) : Patient script (.error e left)

/-- A reading stays patient behind other text and in a longer script, as they change neither its
error nor what it leaves. -/
theorem Patient.behind {front script : List Delivery} (h : front <:+ script) (text : Bytes)
    {r : EStateM.Result StreamError Inbound Bytes} (hr : Patient front r) :
    Patient script (Bytes.behind text r) := by
  cases hr with
  | ok hleft => exact .ok (hleft.trans h)
  | error hleft he => exact .error (hleft.trans h) he

/-- A span that is cut short is reported as an end, never as an interruption. -/
theorem cutShort_ne_interrupted (span : Span) : span.cutShort.kind ≠ .interrupted := by
  rw [Decoder.kind_cutShort]
  decide

/-- Lines and payloads are taken through all interruptions.  By induction on the script.  A
delivery without bytes cuts a span short, which is no interruption, and other faults are handed
on as they are. -/
theorem spanFrom_patient (script : List Delivery) (span : Span) (buffer : Bytes) :
    Patient script (spanFrom script span buffer) := by
  induction script generalizing span buffer with
  | nil =>
    rcases Nat.lt_or_ge buffer.length (span.extent buffer) with hlt | hge
    · rw [spanFrom_of_lt hlt]
      exact .error List.suffix_rfl (cutShort_ne_interrupted span)
    · rw [spanFrom_of_le hge]
      exact .ok List.suffix_rfl
  | cons delivery script ih =>
    rcases Nat.lt_or_ge buffer.length (span.extent buffer) with hlt | hge
    · have hcons : script <:+ delivery :: script := List.suffix_cons ..
      rw [spanFrom_of_lt hlt]
      match delivery with
      | .chunk [] => exact .error hcons (cutShort_ne_interrupted span)
      | .chunk (b :: bytes) => exact (ih _ _).behind hcons buffer
      | .fault f =>
        dsimp only
        split
        · exact (ih _ _).behind hcons buffer
        · rename_i hf
          refine .error hcons fun hkind => hf ?_
          obtain ⟨g, hg, hinterruption⟩ := StreamError.kind_eq_interrupted_iff.1 hkind
          cases hg
          exact hinterruption
    · rw [spanFrom_of_le hge]
      exact .ok List.suffix_rfl

/-! ## Sizes -/

/-- Where an input succeeds the list of its bytes does, with the bytes that the input has left. -/
theorem Answer.eq_ok {α : Type} {script : List Delivery} {a : α} {left : Inbound}
    {r : EStateM.Result StreamError Bytes α} (h : Answer script (.ok a left) r) :
    r = .ok a left.bytes := by
  cases h
  rfl

/-- A byte that was taken is gone. -/
theorem size_lt_of_takeByte {inbound left : Inbound} {b : UInt8}
    (h : inbound.takeByte = .ok b left) : left.size < inbound.size := by
  have hbytes : Bytes.takeByte inbound.bytes = .ok b left.bytes := (h ▸ inbound.takeByte_answer).eq_ok
  rw [← length_bytes, ← length_bytes]
  cases hlist : inbound.bytes with
  | nil =>
    rw [hlist] at hbytes
    cases hbytes
  | cons c rest =>
    rw [hlist] at hbytes
    cases hbytes
    exact Nat.lt_succ_self _

/-- A span takes what it takes out of the input, and nothing comes in. -/
theorem size_le_of_takeSpan {span : Span} {inbound left : Inbound} {text : Bytes}
    (h : inbound.takeSpan span = .ok text left) : left.size ≤ inbound.size := by
  have hanswer : Answer inbound.script (inbound.takeSpan span) (Bytes.takeSpan span inbound.bytes) :=
    spanFrom_answer inbound.script span inbound.buffer
  rw [h] at hanswer
  have hbytes := hanswer.eq_ok
  rw [← length_bytes, ← length_bytes]
  rcases Nat.lt_or_ge inbound.bytes.length (span.extent inbound.bytes) with hlt | hge
  · rw [Bytes.takeSpan_of_lt hlt] at hbytes
    cases hbytes
  · rw [Bytes.takeSpan_of_le hge] at hbytes
    injection hbytes with _ hleft
    rw [← hleft, List.length_drop]
    exact Nat.sub_le _ _

/-! ## Runs -/

/-- What a run on an input comes to.  It leaves a rest of the script, and if it reports an
interruption, then that stood directly behind a pause and was the last thing read. -/
inductive Endures {α : Type} (script : List Delivery) : EStateM.Result Error Inbound α → Prop
  | ok {a : α} {left : Inbound} (h : left.script <:+ script) : Endures script (.ok a left)
  | error {e : Error} {left : Inbound} (h : left.script <:+ script)
    (he : e.isInterruption = false) : Endures script (.error e left)
  | stalled {f : Fault} {left : Inbound} (hf : f.isInterruption = true)
    (hbuffer : left.buffer = []) (h : .chunk [] :: .fault f :: left.script <:+ script) :
    Endures script (.error (.stream (.fault f)) left)

/-- What is endured on an end of a script is endured on the script: what is left, and a pause with
the interruption behind it, stand at the end of both. -/
theorem Endures.of_suffix {α : Type} {front script : List Delivery} (hscript : front <:+ script)
    {r : EStateM.Result Error Inbound α} (h : Endures front r) : Endures script r := by
  cases h with
  | ok h => exact .ok (h.trans hscript)
  | error h he => exact .error (h.trans hscript) he
  | stalled hf hbuffer h => exact .stalled hf hbuffer (h.trans hscript)

/-- A read of a byte that fails ends a run. -/
theorem endures_of_takeByte {α : Type} {inbound left : Inbound} {e : StreamError}
    (h : inbound.takeByte = .error e left) :
    Endures inbound.script (.error (.stream e) left : EStateM.Result Error Inbound α) := by
  have hsuffix := inbound.takeByte_suffix
  rw [h] at hsuffix
  by_cases he : e.kind = .interrupted
  · obtain ⟨f, rfl, hf⟩ := StreamError.kind_eq_interrupted_iff.1 he
    obtain ⟨-, hbuffer, waits, -, hscript⟩ := (takeByte_interrupted_iff hf).1 h
    exact .stalled hf hbuffer ⟨waits, hscript.symm⟩
  · exact .error hsuffix (beq_false_of_ne he)

/-- In lockstep no decoder fails but by refusing what it read, so what it reports of its input
is what one of its reads came to. -/
theorem endures_of_lockstep {α : Type} {n m : Nat} {d d' : Decoder α}
    (h : Decoder.Lockstep n m d d') {inbound : Inbound} (hsize : inbound.size < n) :
    Endures inbound.script (d.run inbound) := by
  -- read by read: what is left of the script behind one is a suffix of it
  induction h generalizing inbound with
  | spent => exact absurd hsize (Nat.not_lt_zero _)
  | done => exact .ok List.suffix_rfl
  | refuse => exact .error List.suffix_rfl rfl
  | byte _ ih =>
    rw [Decoder.run_byte]
    cases hread : inbound.takeByte with
    | ok b left =>
      have hless := size_lt_of_takeByte hread
      have hsuffix : left.script <:+ inbound.script := by
        have hrest := inbound.takeByte_suffix
        rwa [hread] at hrest
      rw [show ByteSource.byte inbound = .ok b left from hread]
      exact (ih b (by omega)).of_suffix hsuffix
    | error e left =>
      rw [show ByteSource.byte inbound = .error e left from hread]
      exact endures_of_takeByte hread
  | span _ ih =>
    rename_i wanted next next' _
    -- a span reports no interruption, so only the read of a byte can stall
    have hpatient : Patient inbound.script (inbound.takeSpan wanted) :=
      spanFrom_patient inbound.script wanted inbound.buffer
    rw [Decoder.run_span]
    cases hread : inbound.takeSpan wanted with
    | ok text left =>
      have hless := size_le_of_takeSpan hread
      rw [hread] at hpatient
      cases hpatient with
      | ok hsuffix =>
        rw [show ByteSource.span wanted inbound = .ok text left from hread]
        exact (ih text (by omega)).of_suffix hsuffix
    | error e left =>
      rw [hread] at hpatient
      cases hpatient with
      | error hsuffix he =>
        rw [show ByteSource.span wanted inbound = .error e left from hread]
        exact .error hsuffix (beq_false_of_ne he)

/-- Decoding endures every script: with a round for each byte it is in lockstep with itself. -/
theorem decode_endures (limits : Limits) (inbound : Inbound) :
    Endures inbound.script (decode limits inbound) :=
  endures_of_lockstep
    (Decoder.unit_lockstep (Nat.le_refl (inbound.size + 1)) (Nat.le_refl _) limits limits.maxDepth)
    (Nat.lt_succ_self inbound.size)

/-- A unit is read from its first byte on, which is where an interruption can be reported. -/
theorem exists_byte_unit (limits : Limits) (rounds levels : Nat) :
    ∃ next, Decoder.unit limits (rounds + 1) levels = .byte next := by
  cases levels with
  | zero => exact ⟨_, rfl⟩
  | succ levels => exact ⟨_, rfl⟩

/-- A call starts with the read of a byte, and there an interruption behind a pause is reported
whatever the limits are. -/
theorem decode_stalled (limits : Limits) {waits : List Delivery}
    (hwaits : ∀ delivery ∈ waits, delivery.isInterruption = true) {f : Fault}
    (hf : f.isInterruption = true) (script : List Delivery) :
    decode limits (⟨[], waits ++ .chunk [] :: .fault f :: script⟩ : Inbound) =
      .error (.stream (.fault f)) ⟨[], script⟩ := by
  have hread : ByteSource.byte (⟨[], waits ++ .chunk [] :: .fault f :: script⟩ : Inbound) =
      .error (.fault f) ⟨[], script⟩ :=
    (takeByte_interrupted_iff hf).2 ⟨rfl, rfl, waits, hwaits, rfl⟩
  obtain ⟨next, hnext⟩ := exists_byte_unit limits
    (ByteSource.size (⟨[], waits ++ .chunk [] :: .fault f :: script⟩ : Inbound)) limits.maxDepth
  rw [decode, hnext, Decoder.run_byte, hread]
  rfl

/-! ## Calls -/

/-- A call passes the place at which it reports an interruption. -/
theorem Endures.stalls_le {script : List Delivery} {r : EStateM.Result Error Inbound Value}
    (h : Endures script r) (taken : Nat) :
    (if Reading.isInterrupted ⟨outcome r, taken⟩ = true then 1 else 0) +
      stalls (stateAfter r).script ≤ stalls script := by
  cases h with
  | ok h =>
    have hle := stalls_le_of_suffix h
    simpa [outcome, Reading.isInterrupted, stateAfter] using hle
  | error h he =>
    have hle := stalls_le_of_suffix h
    simpa [outcome, Reading.isInterrupted, stateAfter, he] using hle
  | stalled hf hbuffer h =>
    have hle := stalls_le_of_suffix h
    -- the place is passed with the report, so it is not counted a second time
    rw [stalls_stall hf, Nat.add_comm] at hle
    refine Nat.le_trans (Nat.add_le_add_right ?_ _) hle
    split <;> decide

/-- Calls report as many interruptions as they pass such places, or fewer.  By induction on the
calls, each of which hands on what it left of the script. -/
theorem countP_add_stalls_le (limits : Limits) (count : Nat) (inbound : Inbound) :
    (readings limits count inbound).1.countP (·.isInterrupted) +
      stalls (readings limits count inbound).2.script ≤ stalls inbound.script := by
  induction count generalizing inbound with
  | zero => exact Nat.le_of_eq (Nat.zero_add _)
  | succ count ih =>
    have hfirst := (decode_endures limits inbound).stalls_le
      (ByteSource.size inbound - ByteSource.size (stateAfter (decode limits inbound)))
    have hothers := ih (stateAfter (decode limits inbound))
    simp only [readings, List.countP_cons]
    omega

/-- Interruptions: **calls report one only where it stands directly behind a pause, and each
such place once,** whatever is read, through a buffer of any size.  Lines and payloads report
none, and the read of a byte reports those at such a place and no others, so one that is
met at the start of a value is reported for certain. -/
theorem readings_interrupted (limits : Limits) :
    (∀ (capacity : Nat) (script : List Delivery) (count : Nat), 1 ≤ capacity →
        (readings limits count (ofScript capacity script)).1.countP (·.isInterrupted) ≤
          stalls script) ∧
      (∀ (inbound left : Inbound) (e : Error), decode limits inbound = .error e left →
        e.isInterruption = true → ∃ f, e = .stream (.fault f) ∧ left.buffer = [] ∧
          .chunk [] :: .fault f :: left.script <:+ inbound.script) ∧
      (∀ (waits script : List Delivery) (f : Fault),
        (∀ delivery ∈ waits, delivery.isInterruption = true) → f.isInterruption = true →
        decode limits (⟨[], waits ++ .chunk [] :: .fault f :: script⟩ : Inbound) =
          .error (.stream (.fault f)) ⟨[], script⟩) ∧
      (∀ (inbound left : Inbound) (f : Fault), f.isInterruption = true →
        (inbound.takeByte = .error (.fault f) left ↔
          inbound.buffer = [] ∧ left.buffer = [] ∧ ∃ waits : List Delivery,
            (∀ delivery ∈ waits, delivery.isInterruption = true) ∧
              inbound.script = waits ++ .chunk [] :: .fault f :: left.script)) ∧
      ∀ (span : Span) (inbound left : Inbound) (e : StreamError),
        inbound.takeSpan span = .error e left → e.kind ≠ .interrupted := by
  refine ⟨?_, ?_, ?_, ?_, ?_⟩
  · intro capacity script count hcapacity
    have hle := countP_add_stalls_le limits count (ofScript capacity script)
    rw [stalls_ofScript hcapacity] at hle
    -- reports, and places still to come, are together no more than there were places
    exact Nat.le_trans (Nat.le_add_right _ _) hle
  · intro inbound left e h he
    have hendures := decode_endures limits inbound
    rw [h] at hendures
    cases hendures with
    | error _ hnot => exact absurd he (by simp [hnot])
    | stalled _ hbuffer hsuffix => exact ⟨_, rfl, hbuffer, hsuffix⟩
  · intro waits script f hwaits hf
    exact decode_stalled limits hwaits hf script
  · intro inbound left f hf
    exact takeByte_interrupted_iff hf
  · intro span inbound left e h
    have hpatient : Patient inbound.script (inbound.takeSpan span) :=
      spanFrom_patient inbound.script span inbound.buffer
    rw [h] at hpatient
    cases hpatient with
    | error _ he => exact he

/-- A read that has to be made again. -/
def again : Delivery := .fault ⟨.interrupted, "again"⟩

/-- Interruptions in front of a pause, inside a number and inside a line, and none behind a
pause. -/
def restless : List Delivery :=
  [again, .chunk [], .chunk (ascii ":1".toList), again, .chunk (ascii "\r\n+a".toList), again,
    .chunk (ascii "\r\n".toList)]

/-- A number behind whose marker there is a pause, and then an interruption. -/
def halting : List Delivery :=
  [.chunk (ascii ":".toList), .chunk [], again, .chunk (ascii "1\r\n".toList)]

/-- Through a buffer of one byte none of the interruptions is reported, and at the start of a
value one is, behind one that is passed over. -/
theorem readings_restless :
    stalls restless = 0 ∧ 1 ≤ 1 ∧
      (∀ reading ∈ (readings {} 2 (ofScript 1 restless)).1, ¬reading.isInterrupted = true) ∧
      again.isInterruption = true ∧
      ∃ f left, decode {} (⟨[], again :: .chunk [] :: again :: restless⟩ : Inbound) =
          .error (.stream (.fault f)) left ∧
        .chunk [] :: .fault f :: left.script <:+ again :: .chunk [] :: again :: restless ∧
        (takeByte ⟨[], again :: .chunk [] :: again :: restless⟩ = .error (.fault f) left ∧
          left.buffer = []) ∧
        ∃ cut, takeSpan (.payload 1) ⟨[], [again, .chunk []]⟩ = .error .payloadCutShort cut ∧
          StreamError.payloadCutShort.kind ≠ .interrupted := by
  obtain ⟨hcount, hplace, hstart, hbyte, hspan⟩ := readings_interrupted {}
  have hwaits : ∀ delivery ∈ [again], delivery.isInterruption = true := by decide
  have hdecode := hstart [again] restless ⟨.interrupted, "again"⟩ hwaits rfl
  obtain ⟨f, hf, hbuffer, hsuffix⟩ := hplace _ _ _ hdecode rfl
  cases hf
  refine ⟨by decide, by decide, ?_, rfl, _, _, hdecode, hsuffix, ⟨?_, hbuffer⟩, _, rfl, ?_⟩
  · exact List.countP_eq_zero.1 (Nat.le_zero.1 (hcount 1 restless 2 (by decide)))
  · exact (hbyte _ _ _ rfl).2 ⟨rfl, rfl, [again], hwaits, rfl⟩
  · exact hspan (.payload 1) ⟨[], [again, .chunk []]⟩ _ _ rfl

/-- Inside a value an interruption behind a pause breaks the call off, and the next call takes
the rest of the number for a marker. -/
theorem readings_halting :
    (∀ delivery ∈ halting, delivery.IsSmooth ∨ delivery = .chunk []) ∧
      (readings {} 2 (ofScript 16 halting)).1.map (·.outcome) =
        [.error (.stream (.fault ⟨.interrupted, "again"⟩)),
          .error (.violation (.unknownMarker '1'.toUInt8))] ∧
      (readings {} 2 (ofScript 16 halting)).1.map (·.isInterrupted) = [true, false] := by
  have hscript : ofScript 16 halting = ⟨[], halting⟩ :=
    ofScript_of_size_le (by decide) (by decide)
  rw [hscript]
  exact ⟨by decide, rfl, rfl⟩

end Inbound
end RespCodec
