/-
# Commands are read back

A command goes out as an array of blob strings, so a decoder can read it.
Written as a derivation of the grammar, an encoding needs no decoder to be
followed: digits of a number are a number (`number_digits`), an argument is a
blob string (`unit_encodeArgument`), a command an array of them
(`unit_encode`).  That the grammar is what decoders accept turns it into
`decode_encode`, where any bytes may follow.

Arguments may hold whatever bytes they like, terminators and whole commands
among them: a payload is taken by its length.
-/

import RespCodec.Proofs.Acceptance
import RespCodec.Proofs.Extension
import RespCodec.Sink.Pipeline

namespace RespCodec

open Grammar

/-! ## Numbers -/

/-- The byte of a digit, and its value. -/
theorem digitChar_isDigit {d : Nat} (h : d < 10) :
    IsDigit d.digitChar.toUInt8 ∧ d.digitChar.toUInt8.toNat - 0x30 = d := by
  have hall : ∀ d < 10, (0x30 ≤ d.digitChar.toUInt8 ∧ d.digitChar.toUInt8 ≤ 0x39) ∧
      d.digitChar.toUInt8.toNat - 0x30 = d := by decide
  exact hall d h

/-- The digits that are written for a number are digits of that number.  By strong induction, as
the digits in front of the last are those of the quotient by ten. -/
theorem digits_digits (n : Nat) : Digits (ascii (Decimal.digits n)) n := by
  induction n using Nat.strongRecOn with
  | ind n ih =>
    rcases Nat.lt_or_ge n 10 with hlt | hge
    · obtain ⟨hdigit, hvalue⟩ := digitChar_isDigit hlt
      rw [Decimal.digits_of_lt hlt]
      refine ⟨List.cons_ne_nil _ _, fun b hb => ?_, ?_⟩
      · rw [List.mem_singleton.1 hb]
        exact hdigit
      · simpa [ascii, continued] using hvalue
    · obtain ⟨hdigit, hvalue⟩ := digitChar_isDigit (Nat.mod_lt n (by decide : 0 < 10))
      obtain ⟨-, hdigits, hhead⟩ := ih (n / 10) (by omega)
      rw [Decimal.digits_of_ge hge, ascii, List.map_append]
      refine ⟨by simp, fun b hb => ?_, ?_⟩
      · rcases List.mem_append.1 hb with hb | hb
        · exact hdigits b hb
        · rw [List.mem_singleton.1 hb]
          exact hdigit
      · rw [continued_append, ← ascii, hhead]
        have hlast : continued (n / 10) [(n % 10).digitChar.toUInt8] =
            n / 10 * 10 + ((n % 10).digitChar.toUInt8.toNat - 0x30) := rfl
        rw [List.map_singleton, hlast, hvalue]
        omega

/-- A length as it is written is a number of the grammar. -/
theorem number_digits {n : Nat} (h : n < 2 ^ 63) : Number (ascii (Decimal.digits n) ++ crlf) n :=
  .plain (digits_digits n) h

/-- So it is as a word. -/
theorem number_word {n : Nat} (h : n < 2 ^ 63) :
    Number (ascii (Decimal.digits n.toUInt64.toNat) ++ crlf) n := by
  rw [UInt64.toNat_ofNat_of_lt' (by omega : n < 2 ^ 64)]
  exact number_digits h

/-! ## Commands -/

namespace Command

/-- The value that a command is read back as. -/
def asValue (command : Command) : Value := .array (command.args.map .blobString)

/-- The number of arguments and their lengths are 64-bit numbers. -/
structure Fits (command : Command) : Prop where
  size : command.size < 2 ^ 63
  length : ∀ bytes ∈ command.args, bytes.length < 2 ^ 63

instance (command : Command) : Decidable command.Fits :=
  decidable_of_iff (command.size < 2 ^ 63 ∧ ∀ bytes ∈ command.args, bytes.length < 2 ^ 63)
    ⟨fun h => ⟨h.1, h.2⟩, fun h => ⟨h.size, h.length⟩⟩

/-- A value without attributes is a unit on whatever level its body stands. -/
theorem unit_of_body {limits : Limits} {kind : Kind} {bytes : Bytes} {data : Data Value}
    (hkind : kind ≠ .attributes) (hdata : data ≠ .null)
    (h : ∀ unit?, Body limits unit? kind bytes data) (levels : Nat) :
    Grammar.unit limits levels bytes (.ofData kind data) := by
  cases levels with
  | zero => exact .value (h _) hkind (.inl hdata)
  | succ levels => exact .value (h _) hkind (.inl hdata)

/-- An argument is a blob string. -/
theorem unit_encodeArgument {limits : Limits} {bytes : Bytes} (hlength : bytes.length < 2 ^ 63)
    (hlimit : bytes.length ≤ limits.maxBlobLength) (levels : Nat) :
    Grammar.unit limits levels (encodeArgument bytes) (.blobString bytes) := by
  refine unit_of_body (by decide) (by simp) (fun unit? => ?_) levels
  have hc : ('$', Kind.blobString) ∈ blobMarkers := by decide
  exact .blob hc (.bounded (number_word hlength) hlimit)

/-- The arguments of a command are blobs one after another, if each of them is as long as a blob may
be. -/
theorem units_encodeArguments {limits : Limits} {levels : Nat} {args : List Bytes}
    (hlength : ∀ bytes ∈ args, bytes.length < 2 ^ 63)
    (hlimit : ∀ bytes ∈ args, bytes.length ≤ limits.maxBlobLength) :
    Units (Grammar.unit limits levels) (args.flatMap encodeArgument) (args.map .blobString) := by
  induction args with
  | nil => exact .nil
  | cons bytes args ih =>
    refine .cons ?_ ?_
    · exact unit_encodeArgument (hlength bytes List.mem_cons_self) (hlimit bytes List.mem_cons_self)
        levels
    · exact ih (fun b hb => hlength b (List.mem_cons_of_mem _ hb))
        fun b hb => hlimit b (List.mem_cons_of_mem _ hb)

/-- A command is an array of blob strings, one level deep. -/
theorem unit_encode {limits : Limits} {command : Command} (hfits : command.Fits)
    (hlimit : ∀ bytes ∈ command.args, bytes.length ≤ limits.maxBlobLength) (levels : Nat) :
    Grammar.unit limits (levels + 1) command.encode command.asValue := by
  have hc : ('*', Kind.array, 1) ∈ aggregateMarkers := by decide
  have hcount : (command.args.map Value.blobString).length = command.size * 1 := by simp [size]
  have hargs : Units (Grammar.unit limits levels) _ _ :=
    units_encodeArguments hfits.length hlimit
  have hbody : Body limits (some (Grammar.unit limits levels)) .array
      (encodeHeader .array command.size.toUInt64 ++ command.args.flatMap encodeArgument)
      (.elements (command.args.map .blobString)) :=
    .aggregate hc rfl (.bounded (number_word hfits.size) hargs hcount)
  rw [encode_eq]
  exact .value hbody (by decide) (.inl (by simp))

/-- Round trip: **a command is read back as the array of its arguments,** and what follows it is
left.  What is written is a unit of the grammar, so this is acceptance. -/
theorem decode_encode {limits : Limits} {command : Command} (hdepth : 1 ≤ limits.maxDepth)
    (hfits : command.Fits) (hlimit : ∀ bytes ∈ command.args, bytes.length ≤ limits.maxBlobLength)
    (rest : Bytes) :
    decode limits (command.encode ++ rest) = .ok command.asValue rest := by
  refine decode_eq_ok_iff_unit.2 ⟨command.encode, ?_, rfl⟩
  obtain ⟨levels, hlevels⟩ := Nat.exists_eq_add_of_le' hdepth
  rw [hlevels]
  exact unit_encode hfits hlimit levels

/-- Different commands are read back as different values. -/
theorem asValue_injective {command other : Command} (h : command.asValue = other.asValue) :
    command = other := by
  obtain ⟨args⟩ := command
  obtain ⟨others⟩ := other
  have hmap : args.map Value.blobString = others.map Value.blobString := by
    injection h with _ hdata
    injection hdata
  have hblob {bytes bytes' : Bytes} (h : Value.blobString bytes = .blobString bytes') :
      bytes = bytes' := by
    injection h with _ hdata
    injection hdata
  rw [List.map_inj_right (fun _ _ => hblob)] at hmap
  rw [hmap]

/-- Commands go over the wire one behind the other. -/
theorem encodeAll_cons (command : Command) (commands : List Command) :
    encodeAll (command :: commands) = command.encode ++ encodeAll commands :=
  List.flatMap_cons

/-- Commands appended one by one give their encoding. -/
theorem foldl_encodeOnto (commands : List Command) (buffer : Bytes) :
    commands.foldl encodeOnto buffer = buffer ++ encodeAll commands := by
  induction commands generalizing buffer with
  | nil => exact (List.append_nil _).symm
  | cons command commands ih =>
    rw [List.foldl_cons, ih, encodeOnto_eq, encodeAll_cons, List.append_assoc]

/-- Commands with the same bytes are the same, if they are as many.  By induction on the
commands: the first of both are decoded from the same bytes, and leave the same. -/
theorem encodeAll_injective {commands others : List Command}
    (hfits : ∀ command ∈ commands, command.Fits) (hothers : ∀ command ∈ others, command.Fits)
    (hlength : others.length = commands.length) (h : encodeAll others = encodeAll commands) :
    others = commands := by
  induction commands generalizing others with
  | nil => exact List.eq_nil_of_length_eq_zero hlength
  | cons command commands ih =>
    cases others with
    | nil => cases hlength
    | cons other others =>
      have hcommand := hfits command List.mem_cons_self
      have hother := hothers other List.mem_cons_self
      -- limits under which both heads are read back
      let limits : Limits := { maxDepth := 1, maxBlobLength := 2 ^ 63 }
      have hdepth : 1 ≤ limits.maxDepth := Nat.le_refl 1
      have hread := decode_encode hdepth hcommand
        (fun bytes hb => Nat.le_of_lt (hcommand.length bytes hb)) (encodeAll commands)
      have hread' := decode_encode hdepth hother
        (fun bytes hb => Nat.le_of_lt (hother.length bytes hb)) (encodeAll others)
      rw [encodeAll_cons, encodeAll_cons] at h
      rw [h, hread] at hread'
      injection hread' with hvalue hrest
      rw [asValue_injective hvalue,
        ih (fun c hc => hfits c (List.mem_cons_of_mem _ hc))
          (fun c hc => hothers c (List.mem_cons_of_mem _ hc)) (Nat.succ.inj hlength) hrest.symm]

/-- Decoding what commands were written as gives one value for each, in order. -/
theorem readings_encodeAll {limits : Limits} (hdepth : 1 ≤ limits.maxDepth)
    {commands : List Command} (hfits : ∀ command ∈ commands, command.Fits)
    (hlimit : ∀ command ∈ commands, ∀ bytes ∈ command.args, bytes.length ≤ limits.maxBlobLength)
    (rest : Bytes) :
    readings limits commands.length (encodeAll commands ++ rest) =
      (commands.map fun command => ⟨.ok command.asValue, command.encodedLength⟩, rest) := by
  -- each command is a unit of its own, and units are read one by one
  have hunits : ∀ unit ∈ commands.map fun command => (command.encode, command.asValue),
      decode limits unit.1 = .ok unit.2 [] := by
    intro unit hunit
    obtain ⟨command, hcommand, rfl⟩ := List.mem_map.1 hunit
    have hread := decode_encode hdepth (hfits command hcommand) (hlimit command hcommand) []
    rwa [List.append_nil] at hread
  have hreadings := readings_units hunits rest
  simp only [List.length_map, List.flatMap_map, List.map_map] at hreadings
  rw [encodeAll, hreadings]
  simp [length_encode]

/-- Pipelines: **what is written for commands is read back as the commands,** each
in as many bytes as were computed for it, and what follows is left.  So commands
are known by their bytes, once it is known how many they are. -/
theorem readings_writePipeline {limits : Limits} (hdepth : 1 ≤ limits.maxDepth)
    {commands : List Command} (hfits : ∀ command ∈ commands, command.Fits)
    (hlimit : ∀ command ∈ commands, ∀ bytes ∈ command.args, bytes.length ≤ limits.maxBlobLength)
    (rest : Bytes) :
    (∀ sink left, Sink.writePipeline commands sink = .ok () left →
        left.written = sink.written ++ encodeAll commands) ∧
      (∀ sink, sink.acceptances = [] → ∃ left, Sink.writePipeline commands sink = .ok () left) ∧
      (∀ buffer, commands.foldl encodeOnto buffer = buffer ++ encodeAll commands) ∧
      readings limits commands.length (encodeAll commands ++ rest) =
        (commands.map fun command => ⟨.ok command.asValue, command.encodedLength⟩, rest) ∧
      ∀ others : List Command, (∀ other ∈ others, other.Fits) →
        others.length = commands.length → encodeAll others = encodeAll commands →
        others = commands := by
  refine ⟨?_, ?_, ?_, ?_, ?_⟩
  · intro sink left h
    exact Sink.written_of_writeAll_eq_ok h
  · intro sink hsink
    exact Sink.exists_writeAll_eq_ok hsink
  · exact foldl_encodeOnto commands
  · exact readings_encodeAll hdepth hfits hlimit rest
  · intro others hothers hlength h
    exact encodeAll_injective hfits hothers hlength h

/-- A command whose arguments are a terminator, nothing at all and the encoding of a
command, and the command without arguments. -/
def disguised : List Command := [⟨[crlf, [], ascii "*1\r\n$0\r\n\r\n".toList]⟩, {}]

/-- They are read back with the arguments that they had. -/
theorem readings_disguised :
    (∀ command ∈ disguised, command.Fits) ∧
      (∀ command ∈ disguised, ∀ bytes ∈ command.args, bytes.length ≤ 10) ∧
      readings { maxDepth := 1, maxBlobLength := 10 } 2 (encodeAll disguised ++ [cr]) =
        ([⟨.ok (.array [.blobString crlf, .blobString [],
            .blobString (ascii "*1\r\n$0\r\n\r\n".toList)]), 35⟩, ⟨.ok (.array []), 4⟩], [cr]) := by
  have hfits : ∀ command ∈ disguised, command.Fits := by decide
  have hlimit : ∀ command ∈ disguised, ∀ bytes ∈ command.args, bytes.length ≤ 10 := by decide
  have hdepth : 1 ≤ (⟨1, 10⟩ : Limits).maxDepth := Nat.le_refl 1
  have hread := (readings_writePipeline hdepth hfits hlimit [cr]).2.2.2.1
  simp only [← length_encode] at hread
  exact ⟨hfits, hlimit, hread⟩

end Command

end RespCodec
