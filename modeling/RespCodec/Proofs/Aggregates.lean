/-
# Aggregates accept their grammar

Elements are read by a reader that is a parameter here, as the language of
elements is in the grammar.  If the reader is exact, so are elements by count
(`elementsFrom_exact`), elements to the end of a stream (`elementsToEnd_exact`),
and the aggregate around them (`aggregate_exact`).

An element takes at least one byte, so a stream has no more elements than there
are rounds.
-/

import RespCodec.Proofs.Headers

namespace RespCodec
namespace Decoder

open Grammar

variable {rounds elementRounds perEntry : Nat} {element : Decoder Value} {unit : Language Value}

/-- Elements by count are that many units.  By induction on the count, behind any elements that
were read before. -/
theorem elementsFrom_exact (helement : Exact rounds element unit) (count : Nat)
    (read : List Value) :
    Exact rounds (elementsFrom element count read) fun bytes items =>
      ∃ more, Units unit bytes more ∧ more.length = count ∧ items = read.reverse ++ more := by
  induction count generalizing read with
  | zero =>
    constructor
    · intro input rest items h
      cases h
      exact ⟨[], ⟨[], .nil, rfl, (List.append_nil _).symm⟩, rfl⟩
    · rintro _ rest _ ⟨more, hmore, hcount, rfl⟩ -
      cases hmore with
      | nil => simp [elementsFrom]
      | cons => cases hcount
  | succ count ih =>
    constructor
    · intro input rest items h
      simp only [elementsFrom, bind_eq, run_bind_eq_ok] at h
      obtain ⟨value, middle, hvalue, h⟩ := h
      obtain ⟨bytes, hbytes, rfl⟩ := helement.sound hvalue
      obtain ⟨more, ⟨values, hmore, hcount, rfl⟩, rfl⟩ := (ih _).sound h
      refine ⟨bytes ++ more, ⟨value :: values, .cons hbytes hmore, by simp [hcount], ?_⟩, ?_⟩
      · simp
      · exact (List.append_assoc ..).symm
    · rintro _ rest _ ⟨more, hmore, hcount, rfl⟩ hlength
      cases hmore with
      | nil => cases hcount
      | cons hbytes hmore =>
        rename_i bytes others value values
        -- the bytes behind the first element are no more than before, so the rounds still do
        rw [List.append_assoc] at hlength ⊢
        simp only [elementsFrom, bind_eq, run_bind_eq_ok]
        refine ⟨value, others ++ rest, helement.complete hbytes hlength, ?_⟩
        refine (ih _).complete ⟨values, hmore, Nat.succ.inj hcount, by simp⟩ ?_
        rw [List.length_append] at hlength
        omega

/-- Elements to the end of a stream are units up to one that ends a stream.  By induction on the
rounds.  What is accepted is right with any number of them; to accept all of it takes one for
each byte, as no element is empty. -/
theorem elementsToEnd_exact (helement : Exact elementRounds element unit)
    (hunit : ∀ {bytes value}, unit bytes value → bytes ≠ []) (hrounds : rounds ≤ elementRounds)
    (read : List Value) :
    Exact rounds (elementsToEnd element rounds read) fun bytes items =>
      ∃ front last more final, bytes = front ++ last ∧ Units unit front more ∧
        (∀ item ∈ more, item.kind ≠ .endOfStream) ∧ unit last final ∧
        final.kind = .endOfStream ∧ items = read.reverse ++ more := by
  induction rounds generalizing read with
  | zero => exact exact_outOfRounds _
  | succ rounds ih =>
    have ih := ih (Nat.le_of_succ_le hrounds)
    constructor
    · intro input rest items h
      simp only [elementsToEnd, bind_eq, run_bind_eq_ok] at h
      obtain ⟨value, middle, hvalue, h⟩ := h
      obtain ⟨bytes, hbytes, rfl⟩ := helement.sound hvalue
      -- the stream ends with this unit, or the unit is an element and the stream goes on
      split at h
      · rename_i hend
        cases h
        exact ⟨bytes, ⟨[], bytes, [], value, rfl, .nil, fun _ h => absurd h List.not_mem_nil,
          hbytes, hend, (List.append_nil _).symm⟩, rfl⟩
      · rename_i hend
        obtain ⟨_, ⟨front, last, more, final, rfl, hfront, hmore, hlast, hfinal, rfl⟩, rfl⟩ :=
          (ih _).sound h
        refine ⟨bytes ++ front ++ last, ⟨bytes ++ front, last, value :: more, final, rfl,
          .cons hbytes hfront, ?_, hlast, hfinal, by simp⟩, by simp⟩
        intro item hitem
        rcases List.mem_cons.1 hitem with rfl | hitem
        · exact hend
        · exact hmore item hitem
    · rintro _ rest _ ⟨front, last, more, final, rfl, hfront, hmore, hlast, hfinal, rfl⟩ hlength
      simp only [elementsToEnd, bind_eq, run_bind_eq_ok]
      cases hfront with
      | nil =>
        refine ⟨final, rest, helement.complete hlast ?_, by simp [hfinal]⟩
        exact Nat.lt_of_lt_of_le hlength hrounds
      | cons hbytes hfront =>
        rename_i bytes others value values
        -- an element is not empty, so one round less is enough for the bytes behind it
        have hpos := List.length_pos_iff.2 (hunit hbytes)
        simp only [List.append_assoc, List.length_append] at hlength ⊢
        refine ⟨value, others ++ (last ++ rest), helement.complete hbytes ?_, ?_⟩
        · simp only [List.length_append]
          omega
        · rw [if_neg (hmore value List.mem_cons_self), ← List.append_assoc]
          refine (ih _).complete ⟨others, last, values, final, rfl, hfront, ?_, hlast, hfinal,
            by simp⟩ ?_
          · exact fun item hitem => hmore item (List.mem_cons_of_mem _ hitem)
          · simp only [List.length_append]
            omega

/-- An aggregate reader accepts an aggregate of the grammar.  The header says which of the three
it is: no data, elements behind their count, or a stream of them, whose number is looked at in
the end. -/
theorem aggregate_exact (helement : Exact rounds element unit)
    (hunit : ∀ {bytes value}, unit bytes value → bytes ≠ []) :
    Exact rounds (aggregate perEntry rounds element) (Aggregate perEntry unit) := by
  have hstreamed := elementsToEnd_exact helement hunit (Nat.le_refl rounds) []
  constructor
  · intro input rest data h
    simp only [aggregate, bind_eq, run_bind_eq_ok] at h
    obtain ⟨header, middle, hheader, h⟩ := h
    obtain ⟨head, hhead, rfl⟩ := (header_exact rounds).sound hheader
    cases hhead with
    | number hn =>
      rename_i n
      dsimp only at h
      split at h
      · rename_i hneg
        cases h
        exact ⟨head, .absent hn (lt_zero_iff_toInt.1 hneg), rfl⟩
      · rename_i hneg
        simp only [run_bind_eq_ok, pure_eq_done] at h
        obtain ⟨items, _, h, hdone⟩ := h
        cases hdone
        obtain ⟨bytes, ⟨more, hmore, hcount, rfl⟩, rfl⟩ :=
          (elementsFrom_exact helement _ _).sound h
        have hlength := number_toNat hn hneg
        exact ⟨head ++ bytes, .bounded hlength hmore hcount, (List.append_assoc ..).symm⟩
    | streamed =>
      simp only [run_bind_eq_ok] at h
      obtain ⟨items, _, h, hdone⟩ := h
      obtain ⟨_, ⟨front, last, more, final, rfl, hfront, hmore, hlast, hfinal, rfl⟩, rfl⟩ :=
        hstreamed.sound h
      -- the elements of a stream are counted when all are read
      split at hdone
      · rename_i hcount
        cases hdone
        refine ⟨_, .streamed hfront hmore (Nat.dvd_of_mod_eq_zero hcount) hlast hfinal, ?_⟩
        simp [streamedMark]
      · exact absurd hdone run_refuse_ne_ok
  · intro _ rest data h hlength
    simp only [aggregate, bind_eq, run_bind_eq_ok]
    cases h with
    | absent hhead hn =>
      obtain ⟨n, rfl, hrun⟩ := exists_header_of_number hhead hlength
      exact ⟨_, rest, hrun, by simp [lt_zero_iff_toInt.2 hn]⟩
    | bounded hhead hbytes hcount =>
      rename_i head bytes count items
      rw [List.append_assoc] at hlength ⊢
      obtain ⟨n, hneg, htoNat, hrun⟩ := exists_header_of_length hhead hlength
      refine ⟨_, _, hrun, ?_⟩
      simp only [if_neg hneg, htoNat, run_bind_eq_ok, pure_eq_done]
      refine ⟨items, rest, ?_, rfl⟩
      refine (elementsFrom_exact helement _ _).complete ⟨items, hbytes, hcount, rfl⟩ ?_
      rw [List.length_append] at hlength
      omega
    | streamed hbytes hitems hcount hlast hfinal =>
      rename_i bytes last items final
      simp only [List.cons_append, List.append_assoc] at hlength ⊢
      refine ⟨.streamed, bytes ++ (last ++ rest), ?_, ?_⟩
      · have hmark : HeaderBytes (streamedMark :: crlf) .streamed := .streamed
        exact (header_exact rounds).complete hmark hlength
      · simp only [run_bind_eq_ok]
        refine ⟨items, rest, ?_, ?_⟩
        · rw [← List.append_assoc]
          refine hstreamed.complete ⟨bytes, last, items, final, rfl, hbytes, hitems, hlast, hfinal,
            rfl⟩ ?_
          simp only [List.length_cons, List.length_append] at hlength ⊢
          omega
        · rw [if_pos (Nat.mod_eq_zero_of_dvd hcount)]
          rfl

end Decoder
end RespCodec
