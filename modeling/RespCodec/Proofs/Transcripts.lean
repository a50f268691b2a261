/-
# What is printed of a capture

A capture is units one after another and, if it was broken off or goes on with something else, a
rest.  `Capture.Splits` says where: each unit is decoded as its value and takes all of its
bytes, and at the rest decoding fails.  At the end of a capture it fails as well, so the rest
may be empty, and then there is nothing but units.

Every capture splits (`exists_splits`), as units take bytes.  The loop that reads a capture
follows the units one by one and stops at the rest; it has a round for each byte, so it is never
cut off (`Capture.Splits.read_eq`).  It tells an end from a failure by whether bytes are left, and
not by the error, so attributes units without a value behind them and a value that is cut off
are failures (`splits_of_cut`), and the values in front of them are printed all the same
(`runWith_decode`).

How a line asks for a capture to be decoded is up to the parser of lines, which is a parameter.
-/

import RespCodec.CommandLine.Run
import RespCodec.Proofs.RoundTrip

namespace RespCodec

open Grammar

variable {limits : Limits} {bytes rest : Bytes} {units : List (Bytes × Value)}

/-! ## Captures and their units -/

/-- The units that a capture starts with, each with the value that it is decoded as, and the
rest on which decoding fails. -/
structure Capture.Splits (limits : Limits) (bytes : Bytes) (units : List (Bytes × Value))
    (rest : Bytes) : Prop where
  bytes_eq : bytes = units.flatMap (·.1) ++ rest
  decodes : ∀ unit ∈ units, decode limits unit.1 = .ok unit.2 []
  stops : ∃ e left, decode limits rest = .error e left

/-- A value has taken bytes, and from them alone the same value is decoded. -/
theorem exists_unit_of_decode {value : Value} (h : decode limits bytes = .ok value rest) :
    ∃ head, head ≠ [] ∧ bytes = head ++ rest ∧ decode limits head = .ok value [] := by
  obtain ⟨head, hhead, rfl⟩ := decode_eq_ok_iff_unit.1 h
  exact ⟨head, unit_ne_nil hhead, rfl,
    decode_eq_ok_iff_unit.2 ⟨head, hhead, (List.append_nil head).symm⟩⟩

/-- Every capture splits.  By strong induction on its length, as a unit that is decoded has taken at
least one byte. -/
theorem exists_splits (limits : Limits) (bytes : Bytes) :
    ∃ units rest, Capture.Splits limits bytes units rest := by
  induction hlength : bytes.length using Nat.strongRecOn generalizing bytes with
  | ind n ih =>
    cases hdecode : decode limits bytes with
    | error e left => exact ⟨[], bytes, rfl, fun _ h => absurd h List.not_mem_nil, e, left, hdecode⟩
    | ok value left =>
      obtain ⟨head, hne, rfl, hhead⟩ := exists_unit_of_decode hdecode
      have hpos := List.length_pos_iff.2 hne
      rw [List.length_append] at hlength
      obtain ⟨units, rest, rfl, hunits, hstops⟩ := ih left.length (by omega) left rfl
      refine ⟨(head, value) :: units, rest, ?_, ?_, hstops⟩
      · rw [List.flatMap_cons, List.append_assoc]
      · exact List.forall_mem_cons.2 ⟨hhead, hunits⟩

namespace Capture

/-- The first unit is what decoding takes, and the others are those of what it leaves. -/
theorem Splits.of_cons {unit : Bytes × Value} (h : Splits limits bytes (unit :: units) rest) :
    ∃ more, unit.1 ≠ [] ∧ bytes = unit.1 ++ more ∧ decode limits bytes = .ok unit.2 more ∧
      Splits limits more units rest := by
  obtain ⟨hunit, hunits⟩ := List.forall_mem_cons.1 h.decodes
  obtain ⟨head, hne, hhead, -⟩ := exists_unit_of_decode hunit
  rw [List.append_nil] at hhead
  have hbytes := h.bytes_eq
  rw [List.flatMap_cons, List.append_assoc] at hbytes
  refine ⟨units.flatMap (·.1) ++ rest, hhead ▸ hne, hbytes, ?_, rfl, hunits, h.stops⟩
  rw [hbytes]
  exact decode_append_of_ok hunit _

/-- A capture that is cut off inside a unit splits in front of it. -/
theorem splits_of_cut {front back : Bytes} {value : Value}
    (hunits : ∀ unit ∈ units, decode limits unit.1 = .ok unit.2 []) (hback : back ≠ [])
    (h : decode limits (front ++ back) = .ok value []) :
    Splits limits (units.flatMap (·.1) ++ front) units front := by
  obtain ⟨cut, hcut, -⟩ := decode_of_cut hback h
  exact ⟨rfl, hunits, .stream cut, [], hcut⟩

/-- A capture splits in one way only, as decoding says where each unit ends. -/
theorem Splits.unique (h : Splits limits bytes units rest) {units' : List (Bytes × Value)}
    {rest' : Bytes} (h' : Splits limits bytes units' rest') : units' = units ∧ rest' = rest := by
  induction units generalizing bytes units' with
  | nil =>
    obtain ⟨rfl, -, e, left, hstops⟩ := h
    cases units' with
    | nil => exact ⟨rfl, h'.bytes_eq.symm⟩
    | cons unit' units' =>
      obtain ⟨more, -, -, hdecode, -⟩ := h'.of_cons
      cases hstops.symm.trans hdecode
  | cons unit units ih =>
    obtain ⟨more, -, hbytes, hdecode, hothers⟩ := h.of_cons
    cases units' with
    | nil =>
      obtain ⟨rfl, -, e, left, hstops⟩ := h'
      cases hstops.symm.trans hdecode
    | cons unit' units' =>
      obtain ⟨more', -, hbytes', hdecode', hothers'⟩ := h'.of_cons
      -- decoding is a function, so both first units are the same value with the same rest
      obtain ⟨hvalue, rfl⟩ := EStateM.Result.ok.inj (hdecode'.symm.trans hdecode)
      have hfront : unit'.1 = unit.1 := List.append_cancel_right (hbytes'.symm.trans hbytes)
      obtain ⟨rfl, rfl⟩ := ih hothers hothers'
      exact ⟨congrArg (· :: units') (Prod.ext hfront hvalue), rfl⟩

/-- Calls for a value come to the units, one each, and leave the rest. -/
theorem Splits.readings_eq (h : Splits limits bytes units rest) :
    readings limits units.length bytes =
      (units.map fun unit => ⟨.ok unit.2, unit.1.length⟩, rest) := by
  rw [h.bytes_eq]
  exact readings_units h.decodes rest

/-- At the end of a capture the loop stops, whatever rounds it has left. -/
theorem read_nil (limits : Limits) (rounds : Nat) : read limits rounds [] = ⟨[], none⟩ := by
  cases rounds <;> rfl

/-- A round of the loop, where bytes are left. -/
theorem read_succ (limits : Limits) (rounds : Nat) (hne : bytes ≠ []) :
    read limits (rounds + 1) bytes =
      match decode limits bytes with
      | .ok value rest => (read limits rounds rest).cons value
      | .error e _ => ⟨[], some e⟩ := by
  obtain ⟨b, tail, rfl⟩ := List.exists_cons_of_ne_nil hne
  rfl

/-- With a round for each byte the loop reads the values of the units, and it fails if there is
a rest.  By induction on the units, each of which takes a round and a byte at least. -/
theorem Splits.read_eq (h : Splits limits bytes units rest) {rounds : Nat}
    (hrounds : bytes.length ≤ rounds) :
    (read limits rounds bytes).values = units.map (·.2) ∧
      ((read limits rounds bytes).failure = none ↔ rest = []) := by
  induction units generalizing bytes rounds with
  | nil =>
    obtain ⟨rfl, -, e, left, hstops⟩ := h
    by_cases hrest : bytes = []
    · rw [hrest, read_nil]
      exact ⟨rfl, iff_of_true rfl rfl⟩
    · have hpos := List.length_pos_iff.2 hrest
      obtain ⟨others, rfl⟩ := Nat.exists_eq_add_one.2 (Nat.lt_of_lt_of_le hpos hrounds)
      rw [read_succ limits others hrest, hstops]
      exact ⟨rfl, iff_of_false (Option.some_ne_none e) hrest⟩
  | cons unit units ih =>
    obtain ⟨more, hne, rfl, hdecode, hmore⟩ := h.of_cons
    have hpos := List.length_pos_iff.2 hne
    rw [List.length_append] at hrounds
    obtain ⟨others, rfl⟩ : ∃ others, rounds = others + 1 := Nat.exists_eq_add_one.2 (by omega)
    -- a unit is not empty, so the rounds left are enough for the bytes behind it
    have hothers : more.length ≤ others := by omega
    obtain ⟨hvalues, hfailure⟩ := ih hmore hothers
    rw [read_succ limits others (List.append_ne_nil_of_left_ne_nil hne more), hdecode]
    exact ⟨congrArg (unit.2 :: ·) hvalues, hfailure⟩

end Capture

/-! ## Lines -/

/-- The lines that show a value: one for its attributes if it has some, and its own. -/
def Value.lines (value : Value) : List (List Char) :=
  (value.attributes.map fun unit => "(attributes) ".toList ++ unit.display).toList ++
    [value.display]

namespace CommandLine

/-- What is printed of a value is its lines. -/
theorem ascii_entry (value : Value) :
    ascii (Capture.entry value) = value.lines.flatMap printedLine := by
  obtain ⟨kind, data, attributes⟩ := value
  cases attributes with
  | none => simp [Capture.entry, Value.lines, printedLine]
  | some unit => simp [Capture.entry, Value.lines, printedLine, ascii]

/-- What is printed of a capture is the lines of its values, in order. -/
theorem ascii_transcript (capture : Capture) :
    ascii capture.transcript = (capture.values.flatMap Value.lines).flatMap printedLine := by
  have hentry : (fun value => (Capture.entry value).map Char.toUInt8) =
      fun value => value.lines.flatMap printedLine := funext ascii_entry
  rw [Capture.transcript, ascii, List.map_flatMap, List.flatMap_assoc, hentry]

/-! ## Runs -/

/-- What a host has to decode: a file, or what is piped in. -/
def Host.capture (host : Host) : (file : Option Bytes) → Except StreamError Bytes
  | none => .ok host.input
  | some file => host.file file

/-- A capture is printed in the same way whether it comes from a file or is piped in. -/
theorem perform_decode {host : Host} {file : Option Bytes} {input : Bytes}
    (h : host.capture file = .ok input) (config : Config) :
    perform host config (.decode file) = printCapture config.toLimits input := by
  cases file with
  | none =>
    obtain rfl := Except.ok.inj h
    rfl
  | some file =>
    have hfile : host.file file = .ok input := h
    simp only [perform, hfile]

/-- A capture is printed as the values of its units, and succeeds if it has no rest. -/
theorem printCapture_eq {input : Bytes} (h : Capture.Splits limits input units rest) :
    printCapture limits input =
      { printed := (units.flatMap fun unit => unit.2.lines).flatMap printedLine
        exitCode := if input = units.flatMap (·.1) then 0 else 1 } := by
  obtain ⟨hvalues, hfailure⟩ := h.read_eq (Nat.le_refl input.length)
  have hall : (Capture.ofBytes limits input).failure.isNone = true ↔
      input = units.flatMap (·.1) := by
    rw [h.bytes_eq, List.append_right_eq_self, ← h.bytes_eq, Option.isNone_iff_eq_none]
    exact hfailure
  have hvalues : (Capture.ofBytes limits input).values = units.map (·.2) := hvalues
  simp only [printCapture, ascii_transcript, hvalues, List.flatMap_map, hall]

/-- At least one level of nesting makes the configuration usable, so what the parser hands on is
performed. -/
theorem runWith_perform {parse : Parser} {host : Host} {args : List Bytes} {maxDepth : Nat}
    {action : Action} (hparse : parse args = .perform maxDepth action) (hdepth : 1 ≤ maxDepth) :
    runWith parse host args = perform host { maxDepth } action := by
  have hvalid : Config.validate { maxDepth } = .ok () :=
    (Config.validate_eq_ok_iff _).2 ⟨hdepth, by simp⟩
  simp only [runWith, hparse, hvalid]

/-- Captures: **what is printed of a capture is the values of the units that it starts with, and
the exit code says whether it is these units and nothing else.**  The units are those to which
calls for a value come, up to the first that fails, and there is one way to split a capture into
them and a rest.  A capture that is cut off inside a unit has what is left of it as its rest.
How the line was spelled does not matter, only that its parser asks for a capture to be decoded. -/
theorem runWith_decode {parse : Parser} {host : Host} {args : List Bytes} {maxDepth : Nat}
    {file : Option Bytes} {input : Bytes} (hparse : parse args = .perform maxDepth (.decode file))
    (hcapture : host.capture file = .ok input) (hdepth : 1 ≤ maxDepth) :
    (∃ units rest, Capture.Splits { maxDepth } input units rest ∧
        (∀ units' rest', Capture.Splits { maxDepth } input units' rest' →
          units' = units ∧ rest' = rest) ∧
        readings { maxDepth } units.length input =
          (units.map fun unit => ⟨.ok unit.2, unit.1.length⟩, rest) ∧
        runWith parse host args =
          { printed := (units.flatMap fun unit => unit.2.lines).flatMap printedLine
            exitCode := if input = units.flatMap (·.1) then 0 else 1 }) ∧
      (∀ (units : List (Bytes × Value)) (front back : Bytes) (value : Value),
        (∀ unit ∈ units, decode { maxDepth } unit.1 = .ok unit.2 []) → back ≠ [] →
        decode { maxDepth } (front ++ back) = .ok value [] →
        Capture.Splits { maxDepth } (units.flatMap (·.1) ++ front) units front) := by
  refine ⟨?_, fun _ _ _ _ => Capture.splits_of_cut⟩
  obtain ⟨units, rest, hsplits⟩ := exists_splits { maxDepth } input
  refine ⟨units, rest, hsplits, fun _ _ => hsplits.unique, hsplits.readings_eq, ?_⟩
  rw [runWith_perform hparse hdepth, perform_decode hcapture]
  exact printCapture_eq hsplits

/-- A host that has nothing but what is piped in. -/
def piped (input : Bytes) : Host where
  input
  file := fun _ => .error .nothingToRead
  connect := fun _ => .error .nothingToRead

/-- A line with attributes, an array, and attributes without a value behind them. -/
def unfinished : Bytes :=
  ascii "|1\r\n+a\r\n:1\r\n+hi\r\n*1\r\n_\r\n|1\r\n+b\r\n:2\r\n".toList

/-- A line that asks for what is piped in to be decoded, two levels deep. -/
def decodeTwoLevels : List Bytes :=
  [ascii "--max-depth".toList, ascii ['2'], ascii "decode".toList]

/-- The two values are printed, and the attributes behind them make the run fail: they are a
unit that was cut off. -/
theorem run_unfinished :
    run (piped unfinished) decodeTwoLevels =
      { printed := ascii "(attributes) 1# a => (integer) 1\nhi\n1) (nil)\n".toList
        exitCode := 1 } := by
  have hparse : Invocation.ofArgs decodeTwoLevels = .perform 2 (.decode none) := rfl
  have hcapture : (piped unfinished).capture none = .ok unfinished := rfl
  obtain ⟨⟨units, rest, -, hunique, -, hrun⟩, hcut⟩ :=
    runWith_decode hparse hcapture (show 1 ≤ 2 by decide)
  have hsplits := hcut
    [(unfinished.take 17, (Value.simpleString (ascii "hi".toList)).withAttributes
        (.attributesUnit [(.simpleString (ascii ['a']), .integer 1)])),
      ((unfinished.drop 17).take 7, .array [.null])]
    (unfinished.drop 24) (ascii "_\r\n".toList) (Value.null.withAttributes
        (.attributesUnit [(.simpleString (ascii ['b']), .integer 2)]))
    (List.forall_mem_cons.2 ⟨rfl, List.forall_mem_singleton.2 rfl⟩) (by decide) rfl
  obtain ⟨rfl, -⟩ := hunique _ _ hsplits
  rw [run, hrun]
  rfl

end CommandLine

end RespCodec
