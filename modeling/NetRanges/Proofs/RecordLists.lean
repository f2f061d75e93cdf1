import NetRanges.Proofs.Records

/-!
# Lists of records joined and cut off

What is read from a whole list of records does not depend on the bytes after it, and a flaw in one
of them stays what it is (`decodeAll_append`, `decodeAll_append_of_flawed`). Cut off where a record
ends, the list gives the ranges up to there; cut off inside a record, it ends early
(`decodeAll_take_end`, `endsEarly_of_take`). All of this comes from the reader of one record being
steady and from the equations of `decodeAll` at one record.
-/

namespace NetRanges

/-- Where the records of the first `k` ranges end. -/
def Range.recordsEnd (rs : List Range) (k : Nat) : Nat :=
  ((rs.take k).map Range.recordLength).sum

theorem Range.recordsEnd_succ (r : Range) (rs : List Range) (k : Nat) :
    recordsEnd (r :: rs) (k + 1) = r.recordLength + recordsEnd rs k := rfl

namespace Record

open Range (recordsEnd recordsEnd_succ)

variable {a b : Bytes} {xs : List Range} {e : Error} {ps : List Parts} {n k : Nat}

/-! ## Joined lists -/

theorem decodeAll_append (h : decodeAll a = .ok xs) (b : Bytes) :
    decodeAll (a ++ b) = (decodeAll b).map (xs ++ ·) := by
  obtain ⟨ps, rfl, rfl⟩ := decodeAll_eq_ok_iff.mp h
  exact decodeAll_bytes_append ps b

theorem not_endsEarly_of_flawed (h : Flawed e) : ¬ EndsEarly e := by
  rintro ⟨needed, available, -, rfl⟩
  cases h

theorem decodeAll_append_of_flawed (hflawed : Flawed e) (h : decodeAll a = .error e) (b : Bytes) :
    decodeAll (a ++ b) = .error e := by
  rcases decodeAll_fault h with hearly | ⟨-, hmore⟩
  · exact absurd hearly (not_endsEarly_of_flawed hflawed)
  · exact hmore b

/-! ## Cut-off lists -/

theorem length_flatMap_bytes (ps : List Parts) :
    (ps.flatMap Parts.bytes).length = ((ps.map Parts.range).map Range.recordLength).sum := by
  rw [List.length_flatMap, List.map_map]
  exact congrArg List.sum (List.map_congr_left fun p _ => p.length_bytes)

theorem take_flatMap_bytes (ps : List Parts) (k : Nat) :
    (ps.flatMap Parts.bytes).take (recordsEnd (ps.map Parts.range) k) =
      (ps.take k).flatMap Parts.bytes := by
  have hsplit : ps.flatMap Parts.bytes =
      (ps.take k).flatMap Parts.bytes ++ (ps.drop k).flatMap Parts.bytes := by
    rw [← List.flatMap_append, List.take_append_drop]
  have hend : recordsEnd (ps.map Parts.range) k = ((ps.take k).flatMap Parts.bytes).length := by
    rw [length_flatMap_bytes, List.map_take]
    rfl
  rw [hsplit, hend, List.take_left]

/-- Up to the end of a record the records before it are read. -/
theorem decodeAll_take_end (h : decodeAll a = .ok xs) (k : Nat) :
    decodeAll (a.take (recordsEnd xs k)) = .ok (xs.take k) := by
  obtain ⟨ps, rfl, rfl⟩ := decodeAll_eq_ok_iff.mp h
  exact decodeAll_eq_ok_iff.mpr ⟨ps.take k, (take_flatMap_bytes ps k).symm, List.map_take⟩

theorem endsEarly_of_take_bytes (p : Parts) (h : n < p.bytes.length) :
    ∃ e, range (p.bytes.take n) = .error e ∧ EndsEarly e := by
  have hwhole : range (p.bytes.take n ++ p.bytes.drop n) = .ok (p.range, []) := by
    rw [List.take_append_drop]
    exact range_eq_ok_iff.mpr ⟨p, rfl, (List.append_nil _).symm⟩
  refine steady_range.endsEarly hwhole ?_
  rw [List.length_drop]
  exact Nat.sub_pos_of_lt h

/-- Cut off anywhere else, a list of records ends early: the records before the cut are taken one
by one, until the cut lies in the first one that is left. -/
theorem endsEarly_of_take (hn : n ≤ (ps.flatMap Parts.bytes).length)
    (h : ∀ k ≤ ps.length, n ≠ recordsEnd (ps.map Parts.range) k) :
    ∃ e, decodeAll ((ps.flatMap Parts.bytes).take n) = .error e ∧ EndsEarly e := by
  induction ps generalizing n with
  | nil => exact absurd (Nat.le_zero.mp hn) (h 0 (Nat.le_refl _))
  | cons p ps ih =>
    rw [List.flatMap_cons] at hn ⊢
    rcases Nat.lt_or_ge n p.bytes.length with hlt | hge
    · have hpos : n ≠ 0 := h 0 (Nat.zero_le _)
      obtain ⟨e, hread, hearly⟩ := endsEarly_of_take_bytes p hlt
      have hne : p.bytes.take n ≠ [] := by
        rw [← List.length_pos_iff, List.length_take]
        omega
      rw [List.take_append_of_le_length (Nat.le_of_lt hlt)]
      exact ⟨e, decodeAll_of_error hne hread, hearly⟩
    · obtain ⟨m, rfl⟩ := Nat.exists_eq_add_of_le hge
      have hm : m ≤ (ps.flatMap Parts.bytes).length := by
        rw [List.length_append] at hn
        omega
      obtain ⟨e, hread, hearly⟩ := ih hm fun k hk heq => by
        refine h (k + 1) (Nat.succ_le_succ hk) ?_
        rw [List.map_cons, recordsEnd_succ, ← Parts.length_bytes, heq]
      rw [List.take_length_add_append, decodeAll_of_ok (range_bytes_append ..), hread]
      exact ⟨e, rfl, hearly⟩

/-- **Joining and cutting off.** A list of records read to its end is read alike in front of other
bytes; the result is then that of the other bytes with its ranges in front, or their fault. A flaw
is found alike whatever follows. Of a list that is read to its end, the first `n` bytes give the
ranges whose records they hold if a record ends there, and otherwise they end early. -/
theorem decodeAll_append_and_take (a b : Bytes) :
    (∀ xs, decodeAll a = .ok xs → decodeAll (a ++ b) = (decodeAll b).map (xs ++ ·)) ∧
      (∀ e, Flawed e → decodeAll a = .error e → decodeAll (a ++ b) = .error e) ∧
      ∀ xs, decodeAll a = .ok xs → ∀ n ≤ a.length,
        (∀ k ≤ xs.length, n = recordsEnd xs k → decodeAll (a.take n) = .ok (xs.take k)) ∧
        ((∀ k ≤ xs.length, n ≠ recordsEnd xs k) → ∃ needed available, available < needed ∧
          decodeAll (a.take n) = .error (.truncated needed available)) := by
  refine ⟨fun xs h => decodeAll_append h b, fun e hflawed h =>
    decodeAll_append_of_flawed hflawed h b, fun xs h n hn => ⟨?_, fun hends => ?_⟩⟩
  · rintro k - rfl
    exact decodeAll_take_end h k
  · obtain ⟨ps, rfl, rfl⟩ := decodeAll_eq_ok_iff.mp h
    rw [List.length_map] at hends
    obtain ⟨e, hread, needed, available, hlt, rfl⟩ := endsEarly_of_take hn hends
    exact ⟨needed, available, hlt, hread⟩

/-- Two ranges of different families: their records twice over, and cut off after the first record
and inside the second one; and the word of no tag with a byte behind it. -/
theorem decodeAll_append_and_take_of_two :
    let xs := [Range.single (.ofNat .v4 1), Range.spanning .v6 0 9]
    decodeAll (Range.records xs ++ Range.records xs) = .ok (xs ++ xs) ∧
      decodeAll (Bytes.word 6 ++ [1]) = .error (.unknownTag 6) ∧
      decodeAll ((Range.records xs).take 20) = .ok (xs.take 1) ∧
      ∃ needed available, available < needed ∧
        decodeAll ((Range.records xs).take 30) = .error (.truncated needed available) := by
  intro xs
  have hread : decodeAll (Range.records xs) = .ok xs := decodeAll_records xs
  have hlen : (Range.records xs).length = 64 := length_records xs
  have hflaw : decodeAll (Bytes.word 6) = .error (.unknownTag 6) :=
    decodeAll_of_error (by decide) rfl
  obtain ⟨hjoin, -, hcut⟩ := decodeAll_append_and_take (Range.records xs) (Range.records xs)
  refine ⟨?_, ?_, ?_, ?_⟩
  · rw [hjoin xs hread, hread]
    rfl
  · exact (decodeAll_append_and_take (Bytes.word 6) [1]).2.1 _ (.unknownTag 6) hflaw
  · exact (hcut xs hread 20 (by omega)).1 1 (by decide) rfl
  · exact (hcut xs hread 30 (by omega)).2 (by decide)

end Record

end NetRanges
