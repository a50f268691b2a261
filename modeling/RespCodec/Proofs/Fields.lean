/-
# Lines and blobs accept their grammar

A line is a span up to its line feed, so its reader is an equation
(`run_line_eq_ok`).  A blob is a payload, or fragments collected until an empty
one; what was collected so far is carried through the induction, because the
limit is on all the fragments together (`fragmentsFrom_exact`).
-/

import RespCodec.Proofs.Headers

namespace RespCodec
namespace Decoder

open Grammar

/-! ## Lines -/

/-- A text without a line feed only moves the first one further back. -/
theorem findIdx_lf_append {text : Bytes} (h : lf ∉ text) (more : Bytes) :
    (text ++ more).findIdx (· == lf) = text.length + more.findIdx (· == lf) := by
  have hlength : text.findIdx (· == lf) = text.length := by
    refine List.findIdx_eq_length_of_false fun b hb => ?_
    exact beq_eq_false_iff_ne.2 fun he => h (he ▸ hb)
  rw [List.findIdx_append, hlength, if_neg (Nat.lt_irrefl _), Nat.add_comm]

/-- No line feed stands before the first one. -/
theorem lf_not_mem_of_length_le {text more : Bytes}
    (h : text.length ≤ (text ++ more).findIdx (· == lf)) : lf ∉ text := by
  intro hmem
  have hlt : text.findIdx (· == lf) < text.length :=
    List.findIdx_lt_length_of_exists ⟨lf, hmem, beq_self_eq_true lf⟩
  rw [List.findIdx_append, if_pos hlt] at h
  omega

/-- A line is accepted exactly if it has no line feed and is not too long.  The reader takes a
span through the first line feed and looks at the last two bytes of it, so a text may have
carriage returns in it. -/
theorem run_line_eq_ok {limit : Nat} {input rest text : Bytes} :
    (line limit).run input = .ok text rest ↔
      lf ∉ text ∧ text.length ≤ limit ∧ input = text ++ (crlf ++ rest) := by
  simp only [line, bind_eq, pure_eq_done, run_bind_eq_ok, run_take_eq_ok, Span.extent]
  constructor
  · rintro ⟨taken, _, ⟨hlength, rfl⟩, h⟩
    split at h
    · exact absurd h run_refuse_ne_ok
    rename_i hlast
    split at h
    · exact absurd h run_refuse_ne_ok
    rename_i hcr
    cases h
    -- the two bytes looked at are the last of the span, so the text is in front of them
    obtain ⟨front, rfl⟩ := List.getLast?_eq_some_iff.1 (Decidable.not_not.1 hlast)
    rw [List.dropLast_concat] at hcr ⊢
    obtain ⟨text, rfl⟩ := List.getLast?_eq_some_iff.1 (Decidable.not_not.1 hcr)
    rw [List.dropLast_concat]
    simp only [List.length_append, List.length_singleton] at hlength
    refine ⟨?_, by omega, by simp [crlf]⟩
    -- the span reaches to the first line feed at most, so the text has none
    have hfirst : text.length ≤ (text ++ ([cr] ++ ([lf] ++ rest))).findIdx (· == lf) := by
      simp only [List.append_assoc] at hlength
      omega
    exact lf_not_mem_of_length_le hfirst
  · rintro ⟨hlf, hlimit, rfl⟩
    have hfirst : (text ++ (crlf ++ rest)).findIdx (· == lf) = text.length + 1 := by
      rw [findIdx_lf_append hlf]
      rfl
    refine ⟨text ++ crlf, rest, ⟨?_, (List.append_assoc ..).symm⟩, ?_⟩
    · rw [hfirst, List.length_append]
      simp only [crlf, List.length_cons, List.length_nil]
      omega
    -- the reader looks at the terminator from its end, byte by byte
    · have htext : text ++ crlf = (text ++ [cr]) ++ [lf] := by simp [crlf]
      rw [htext, List.getLast?_concat, List.dropLast_concat, List.getLast?_concat,
        List.dropLast_concat]
      simp

/-! ## Blobs -/

/-- How one round of a fragment reader can succeed: at the empty fragment, which is
the last, or at a fragment that fits behind what was collected. -/
theorem run_fragmentsFrom_succ_eq_ok {limit headerRounds rounds : Nat}
    {collected input rest joined : Bytes} :
    (fragmentsFrom limit headerRounds (rounds + 1) collected).run input = .ok joined rest ↔
      ∃ tail n middle, input = fragmentMark :: tail ∧
        (header headerRounds).run tail = .ok (.number n) middle ∧
        (n = 0 ∧ joined = collected ∧ middle = rest ∨
          ∃ fragment more, fragment ≠ [] ∧ (fragment.length : Int) = n.toInt ∧
            (collected ++ fragment).length ≤ limit ∧ middle = fragment ++ (crlf ++ more) ∧
            (fragmentsFrom limit headerRounds rounds (collected ++ fragment)).run more =
              .ok joined rest) := by
  simp only [fragmentsFrom, bind_eq, run_bind_eq_ok, run_expect_eq_ok]
  constructor
  · rintro ⟨_, tail, rfl, result, middle, hheader, h⟩
    cases result with
    | streamed => exact absurd h run_refuse_ne_ok
    | number n =>
      refine ⟨tail, n, middle, rfl, hheader, ?_⟩
      dsimp only at h
      split at h
      · exact absurd h run_refuse_ne_ok
      rename_i hneg
      split at h
      · rename_i hzero
        cases h
        exact .inl ⟨hzero, rfl, rfl⟩
      · rename_i hzero
        -- neither negative nor zero, so the length is that of a fragment with bytes in it
        rw [lt_zero_iff_toInt] at hneg
        rw [eq_zero_iff_toInt] at hzero
        simp only [run_bind_eq_ok, run_checkLength_eq_ok, run_payload_eq_ok] at h
        obtain ⟨_, _, ⟨hlimit, rfl⟩, fragment, more, ⟨hlength, rfl⟩, h⟩ := h
        have hne : fragment ≠ [] := List.ne_nil_of_length_pos (by omega)
        refine .inr ⟨fragment, more, hne, by omega, ?_, rfl, h⟩
        rw [List.length_append]
        omega
  · rintro ⟨tail, n, middle, rfl, hheader, h⟩
    refine ⟨(), tail, rfl, .number n, middle, hheader, ?_⟩
    rcases h with ⟨rfl, rfl, rfl⟩ | ⟨fragment, more, hne, hlength, hlimit, rfl, h⟩
    · rfl
    · have hpos := List.length_pos_iff.2 hne
      have hneg : ¬n < 0 := by
        rw [lt_zero_iff_toInt]
        omega
      have hzero : ¬n = 0 := by
        rw [eq_zero_iff_toInt]
        omega
      have htoNat : n.toInt.toNat = fragment.length := by omega
      rw [List.length_append] at hlimit
      simp only [if_neg hneg, if_neg hzero, htoNat, run_bind_eq_ok, run_checkLength_eq_ok,
        run_payload_eq_ok]
      exact ⟨(), _, ⟨hlimit, rfl⟩, fragment, more, ⟨rfl, rfl⟩, h⟩

/-- Fragments are accepted behind what was collected, as long as all together is not too long.
By induction on the rounds, with what was collected left open, as the limit is on all fragments
together. -/
theorem fragmentsFrom_exact {limit headerRounds rounds : Nat} {collected : Bytes}
    (hrounds : rounds ≤ headerRounds) (hcollected : collected.length ≤ limit) :
    Exact rounds (fragmentsFrom limit headerRounds rounds collected) fun bytes joined =>
      ∃ more, Fragments bytes more ∧ joined = collected ++ more ∧ joined.length ≤ limit := by
  induction rounds generalizing collected with
  | zero => exact exact_outOfRounds _
  | succ rounds ih =>
    -- the headers inside have rounds of their own, which do not go down
    have hfewer := Nat.le_of_succ_le hrounds
    constructor
    · intro input rest joined h
      rw [run_fragmentsFrom_succ_eq_ok] at h
      obtain ⟨_, n, _, rfl, hheader, h⟩ := h
      obtain ⟨head, hhead, rfl⟩ := (header_exact headerRounds).sound hheader
      cases hhead with
      | number hn =>
        rcases h with ⟨rfl, rfl, rfl⟩ | ⟨fragment, _, hne, hlength, hlimit, rfl, h⟩
        · exact ⟨fragmentMark :: head, ⟨[], .last hn, (List.append_nil _).symm, hcollected⟩, rfl⟩
        · obtain ⟨bytes, ⟨more, hmore, rfl, hjoined⟩, rfl⟩ := (ih hfewer hlimit).sound h
          rw [← hlength] at hn
          refine ⟨_, ⟨fragment ++ more, .more hn hne hmore, List.append_assoc .., hjoined⟩, ?_⟩
          simp [fragmentMark]
    · rintro _ rest joined ⟨more, hmore, rfl, hjoined⟩ hlength
      cases hmore with
      | last hhead =>
        rename_i head
        have hheader : (head ++ rest).length < headerRounds :=
          Nat.lt_of_lt_of_le (Nat.lt_of_succ_lt hlength) hrounds
        obtain ⟨n, hn, hrun⟩ := exists_header_of_number hhead hheader
        refine run_fragmentsFrom_succ_eq_ok.2 ⟨head ++ rest, n, rest, rfl, hrun, .inl ?_⟩
        exact ⟨eq_zero_iff_toInt.2 hn, List.append_nil _, rfl⟩
      | more hhead hne hbytes =>
        rename_i head fragment bytes more
        -- what is collected with this fragment is in front of all together, so within the limit
        rw [← List.append_assoc] at hjoined
        simp only [List.cons_append, List.append_assoc, List.length_cons] at hlength ⊢
        have hheader := Nat.lt_of_lt_of_le (Nat.lt_of_succ_lt hlength) hrounds
        obtain ⟨n, hn, hrun⟩ := exists_header_of_number hhead hheader
        have hlimit : (collected ++ fragment).length ≤ limit := by
          rw [List.length_append] at hjoined
          omega
        refine run_fragmentsFrom_succ_eq_ok.2 ⟨_, n, _, rfl, hrun,
          .inr ⟨fragment, bytes ++ rest, hne, hn.symm, hlimit, rfl, ?_⟩⟩
        rw [← List.append_assoc]
        refine (ih hfewer hlimit).complete ⟨more, hbytes, rfl, hjoined⟩ ?_
        simp only [List.length_append] at hlength ⊢
        omega

/-- A blob reader accepts a blob of the grammar.  The header says which of the three it is: no
payload, a payload behind its length, or fragments collected behind nothing. -/
theorem blob_exact (limit rounds : Nat) : Exact rounds (blob limit rounds) (Blob limit) := by
  have hfragments : Exact rounds (fragmentsFrom limit rounds rounds []) _ :=
    fragmentsFrom_exact (Nat.le_refl rounds) (Nat.zero_le limit)
  constructor
  · intro input rest result h
    simp only [blob, bind_eq, run_bind_eq_ok] at h
    obtain ⟨header, middle, hheader, h⟩ := h
    obtain ⟨head, hhead, rfl⟩ := (header_exact rounds).sound hheader
    cases hhead with
    | streamed =>
      simp only [run_bind_eq_ok, pure_eq_done] at h
      obtain ⟨_, _, h, hdone⟩ := h
      cases hdone
      obtain ⟨bytes, ⟨more, hmore, rfl, hlimit⟩, rfl⟩ := hfragments.sound h
      exact ⟨_, .fragmented hmore hlimit, rfl⟩
    | number hn =>
      rename_i n
      dsimp only at h
      split at h
      · rename_i hneg
        cases h
        exact ⟨head, .absent hn (lt_zero_iff_toInt.1 hneg), rfl⟩
      · rename_i hneg
        have hhead := number_toNat hn hneg
        simp only [run_bind_eq_ok, run_checkLength_eq_ok, run_payload_eq_ok, pure_eq_done] at h
        obtain ⟨_, _, ⟨hlimit, rfl⟩, payload, tail, ⟨hlength, rfl⟩, h⟩ := h
        cases h
        rw [← hlength] at hhead hlimit
        exact ⟨_, .bounded hhead hlimit, by simp⟩
  · intro head rest result h hlength
    simp only [blob, bind_eq, run_bind_eq_ok]
    cases h with
    | absent hhead hn =>
      obtain ⟨n, rfl, hrun⟩ := exists_header_of_number hhead hlength
      exact ⟨_, rest, hrun, by simp [lt_zero_iff_toInt.2 hn]⟩
    | bounded hhead hlimit =>
      rename_i head payload
      simp only [List.append_assoc] at hlength ⊢
      obtain ⟨n, hneg, htoNat, hrun⟩ := exists_header_of_length hhead hlength
      refine ⟨_, _, hrun, ?_⟩
      simp only [if_neg hneg, htoNat, run_bind_eq_ok, run_checkLength_eq_ok, run_payload_eq_ok]
      exact ⟨(), _, ⟨hlimit, rfl⟩, payload, rest, ⟨rfl, rfl⟩, rfl⟩
    | fragmented hbytes hlimit =>
      rename_i bytes payload
      refine ⟨.streamed, bytes ++ rest, ?_, ?_⟩
      · have hmark : HeaderBytes (streamedMark :: crlf) .streamed := .streamed
        exact (header_exact rounds).complete hmark hlength
      · simp only [run_bind_eq_ok, pure_eq_done]
        refine ⟨payload, rest, hfragments.complete ⟨payload, hbytes, rfl, hlimit⟩ ?_, rfl⟩
        simp only [List.cons_append, List.append_assoc, List.length_cons, List.length_append]
          at hlength
        rw [List.length_append]
        omega

end Decoder
end RespCodec
