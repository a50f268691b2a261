/-
# Bodies accept their grammar

A body is read by the form of its kind.  The markers of the grammar are those of the
kinds of each form, so a case split on the form is one on the rules of the grammar:
`body_sound` goes from the reader to the rules, `body_complete` from each rule to the
reader.

Where no level of nesting is left there is no reader of elements, and the grammar
has no language of elements; `ElementsExact` says that the two agree.
-/

import RespCodec.Proofs.Aggregates
import RespCodec.Proofs.Fields

namespace RespCodec
namespace Decoder

open Grammar

variable {rounds perEntry : Nat}

/-! ## Markers -/

/-- **A table of markers is its form.**  The entries of a table are kinds of one form behind their
symbols, and if none is left out, then being in the table is being of the form.  Entries may say
more than their kind, as those of aggregates do, whose form depends on it. -/
theorem mem_markers_iff {ε : Type} {table : List (Char × ε)} (kindOf : ε → Kind)
    (formOf : ε → Form)
    (hentries : ∀ entry ∈ table,
      (kindOf entry.2).symbol = entry.1 ∧ (kindOf entry.2).form = formOf entry.2)
    (hall : ∀ e, (kindOf e).form = formOf e → ((kindOf e).symbol, e) ∈ table) {c : Char} {e : ε} :
    (c, e) ∈ table ↔ (kindOf e).symbol = c ∧ (kindOf e).form = formOf e := by
  constructor
  · exact hentries _
  · rintro ⟨rfl, h⟩
    exact hall e h

/-- Lines are announced by the four markers of `lineMarkers`. -/
theorem mem_lineMarkers_iff {c : Char} {kind : Kind} :
    (c, kind) ∈ lineMarkers ↔ kind.symbol = c ∧ kind.form = .line :=
  mem_markers_iff id (fun _ => .line) (by decide) fun kind h => by
    cases kind <;> cases h <;> decide

/-- Blobs are announced by the three markers of `blobMarkers`, with or without a payload. -/
theorem mem_blobMarkers_iff {c : Char} {kind : Kind} :
    (c, kind) ∈ blobMarkers ↔ kind.symbol = c ∧ kind.form = .blob :=
  mem_markers_iff id (fun _ => .blob) (by decide) fun kind h => by
    cases kind <;> cases h <;> decide

/-- The marker of an aggregate says how many elements make an entry. -/
theorem mem_aggregateMarkers_iff {c : Char} {kind : Kind} :
    (c, kind, perEntry) ∈ aggregateMarkers ↔
      kind.symbol = c ∧ kind.form = .aggregate perEntry :=
  mem_markers_iff Prod.fst (fun e => .aggregate e.2) (by decide) fun ⟨kind, _⟩ h => by
    cases kind <;> cases h <;> decide

/-- The kinds that hold elements are those that are laid out as aggregates. -/
theorem isAggregate_iff {kind : Kind} :
    kind.isAggregate = true ↔ ∃ perEntry, kind.form = .aggregate perEntry := by
  constructor
  · intro h
    cases kind <;> cases h <;> exact ⟨_, rfl⟩
  · rintro ⟨perEntry, h⟩
    cases kind <;> cases h <;> rfl

/-- Entries are single elements or pairs. -/
theorem perEntry_of_form {kind : Kind} (h : kind.form = .aggregate perEntry) :
    perEntry = 1 ∨ perEntry = 2 := by
  cases kind <;> cases h <;> decide

/-- No marker is a carriage return, so a line that follows its marker at once cannot be taken for
one that ends there. -/
theorem marker_ne_cr (kind : Kind) : kind.marker ≠ cr := by cases kind <;> decide

/-- One kind alone is laid out as an integer. -/
theorem eq_integer_of_form {kind : Kind} (h : kind.form = .integer) : kind = .integer := by
  cases kind <;> cases h
  rfl

/-- One kind alone is laid out as a truth value. -/
theorem eq_boolean_of_form {kind : Kind} (h : kind.form = .boolean) : kind = .boolean := by
  cases kind <;> cases h
  rfl

/-- Two kinds are a bare marker: a null and the end of a stream. -/
theorem eq_null_or_endOfStream_of_form {kind : Kind} (h : kind.form = .bare) :
    kind = .null ∨ kind = .endOfStream := by
  cases kind <;> cases h
  · exact .inl rfl
  · exact .inr rfl

/-! ## Readers -/

/-- A truth value is `t` or `f` and a terminator. -/
theorem run_boolean_eq_ok {input rest : Bytes} {data : Data Value} :
    boolean.run input = .ok data rest ↔
      input = 't'.toUInt8 :: (crlf ++ rest) ∧ data = .int 1 ∨
        input = 'f'.toUInt8 :: (crlf ++ rest) ∧ data = .int 0 := by
  simp only [boolean, bind_eq, pure_eq_done, run_bind_eq_ok, run_nextByte_eq_ok]
  constructor
  · rintro ⟨b, tail, rfl, h⟩
    split at h
    · rename_i hb
      simp only [run_bind_eq_ok, run_terminator_eq_ok] at h
      obtain ⟨_, _, rfl, h⟩ := h
      cases h
      exact .inl ⟨by rw [hb], rfl⟩
    split at h
    · rename_i hb
      simp only [run_bind_eq_ok, run_terminator_eq_ok] at h
      obtain ⟨_, _, rfl, h⟩ := h
      cases h
      exact .inr ⟨by rw [hb], rfl⟩
    · exact absurd h run_refuse_ne_ok
  · rintro (⟨rfl, rfl⟩ | ⟨rfl, rfl⟩)
    · refine ⟨_, _, rfl, ?_⟩
      simp only [if_pos, run_bind_eq_ok, run_terminator_eq_ok]
      exact ⟨(), rest, rfl, rfl⟩
    · have hne : 'f'.toUInt8 ≠ 't'.toUInt8 := by decide
      refine ⟨_, _, rfl, ?_⟩
      simp only [if_neg hne, if_pos, run_bind_eq_ok, run_terminator_eq_ok]
      exact ⟨(), rest, rfl, rfl⟩

variable {limits : Limits} {element? : Option (Thunk (Decoder Value))}
  {unit? : Option (Language Value)}

/-- The reader of elements, if there is one, reads the language of elements. -/
def ElementsExact (rounds : Nat) (element? : Option (Thunk (Decoder Value)))
    (unit? : Option (Language Value)) : Prop :=
  Option.Rel (fun element unit => Exact rounds element.get unit ∧
    ∀ {bytes value}, unit bytes value → bytes ≠ []) element? unit?

/-- What the reader of a body accepts is a body behind the marker of its kind.  One case for
each form.  What is accepted for it is right by the theorem on its reader, and the table of
markers has a rule for the kind. -/
theorem body_sound (helements : ElementsExact rounds element? unit?) {kind : Kind}
    {input rest : Bytes} {data : Data Value}
    (h : (body limits rounds element? kind).run input = .ok data rest) :
    ∃ bytes, Body limits unit? kind (kind.marker :: bytes) data ∧ input = bytes ++ rest := by
  unfold body at h
  split at h
  · rename_i hform
    simp only [bind_eq, run_bind_eq_ok, run_line_eq_ok, pure_eq_done] at h
    obtain ⟨text, _, ⟨hlf, hlimit, rfl⟩, h⟩ := h
    cases h
    exact ⟨text ++ crlf, .line (mem_lineMarkers_iff.2 ⟨rfl, hform⟩) ⟨hlf, hlimit⟩,
      (List.append_assoc ..).symm⟩
  · rename_i hform
    simp only [bind_eq, run_bind_eq_ok] at h
    obtain ⟨result, middle, hblob, h⟩ := h
    obtain ⟨bytes, hbytes, rfl⟩ := (blob_exact _ _).sound hblob
    split at h
    · cases h
      exact ⟨bytes, .blob (mem_blobMarkers_iff.2 ⟨rfl, hform⟩) hbytes, rfl⟩
    · cases h
      exact ⟨bytes, .noBlob (mem_blobMarkers_iff.2 ⟨rfl, hform⟩) hbytes, rfl⟩
  · rename_i hform
    simp only [bind_eq, run_bind_eq_ok, pure_eq_done] at h
    obtain ⟨n, middle, hnumber, h⟩ := h
    cases h
    obtain ⟨bytes, hbytes, rfl⟩ := (number_exact _ _).sound hnumber
    rw [eq_integer_of_form hform]
    exact ⟨bytes, .integer hbytes, rfl⟩
  · rename_i hform
    simp only [bind_eq, run_bind_eq_ok, run_terminator_eq_ok, pure_eq_done] at h
    obtain ⟨_, _, rfl, h⟩ := h
    cases h
    -- the form leaves two kinds, which differ in their markers only
    rcases eq_null_or_endOfStream_of_form hform with rfl | rfl
    · exact ⟨crlf, .null, rfl⟩
    · exact ⟨crlf, .endOfStream, rfl⟩
  · rename_i hform
    rw [eq_boolean_of_form hform]
    rcases run_boolean_eq_ok.1 h with ⟨rfl, rfl⟩ | ⟨rfl, rfl⟩
    · exact ⟨'t'.toUInt8 :: crlf, .truth, rfl⟩
    · exact ⟨'f'.toUInt8 :: crlf, .falsehood, rfl⟩
  · rename_i perEntry hform
    split at h
    · exact absurd h run_refuse_ne_ok
    -- without a reader of elements the aggregate was refused above
    · cases helements with
      | some helement =>
        obtain ⟨bytes, hbytes, rfl⟩ := (aggregate_exact helement.1 helement.2).sound h
        exact ⟨bytes, .aggregate (mem_aggregateMarkers_iff.2 ⟨rfl, hform⟩) rfl hbytes, rfl⟩

/-- A body of the grammar is the marker of its kind and what the reader of the body accepts.
One case for each rule, by the other half of the theorems that soundness rests on.  The marker
has been read by then, so it is not among the bytes that the rounds are for. -/
theorem body_complete (helements : ElementsExact rounds element? unit?) {kind : Kind}
    {whole : Bytes} {data : Data Value} (h : Body limits unit? kind whole data) :
    ∃ bytes, whole = kind.marker :: bytes ∧ ∀ {rest : Bytes}, (bytes ++ rest).length < rounds →
      (body limits rounds element? kind).run (bytes ++ rest) = .ok data rest := by
  cases h with
  | line hc h =>
    obtain ⟨rfl, hform⟩ := mem_lineMarkers_iff.1 hc
    obtain ⟨hlf, hlimit⟩ := h
    refine ⟨_, rfl, fun _ => ?_⟩
    simp only [body, hform, bind_eq, run_bind_eq_ok, run_line_eq_ok]
    exact ⟨_, _, ⟨hlf, hlimit, List.append_assoc ..⟩, rfl⟩
  | blob hc h =>
    obtain ⟨rfl, hform⟩ := mem_blobMarkers_iff.1 hc
    refine ⟨_, rfl, fun hlength => ?_⟩
    simp only [body, hform, bind_eq, run_bind_eq_ok]
    exact ⟨_, _, (blob_exact _ _).complete h hlength, rfl⟩
  | noBlob hc h =>
    obtain ⟨rfl, hform⟩ := mem_blobMarkers_iff.1 hc
    refine ⟨_, rfl, fun hlength => ?_⟩
    simp only [body, hform, bind_eq, run_bind_eq_ok]
    exact ⟨_, _, (blob_exact _ _).complete h hlength, rfl⟩
  | integer h =>
    refine ⟨_, rfl, fun hlength => ?_⟩
    simp only [body, Kind.form, bind_eq, run_bind_eq_ok]
    exact ⟨_, _, (number_exact _ _).complete h hlength, rfl⟩
  | null | endOfStream =>
    refine ⟨_, rfl, fun _ => ?_⟩
    simp only [body, Kind.form, bind_eq, run_bind_eq_ok, run_terminator_eq_ok]
    exact ⟨(), _, rfl, rfl⟩
  | truth => exact ⟨_, rfl, fun _ => run_boolean_eq_ok.2 (.inl ⟨rfl, rfl⟩)⟩
  | falsehood => exact ⟨_, rfl, fun _ => run_boolean_eq_ok.2 (.inr ⟨rfl, rfl⟩)⟩
  | aggregate hc hunit h =>
    obtain ⟨rfl, hform⟩ := mem_aggregateMarkers_iff.1 hc
    subst hunit
    cases helements with
    | some helement =>
      refine ⟨_, rfl, fun hlength => ?_⟩
      simp only [body, hform]
      exact (aggregate_exact helement.1 helement.2).complete h hlength

end Decoder
end RespCodec
