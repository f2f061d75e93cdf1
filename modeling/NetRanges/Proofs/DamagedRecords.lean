import NetRanges.Proofs.RecordLists

/-!
# One wrong byte in a list of records

A record names its family three times: in its tag, and in the length before each of its addresses.
A wrong tag is no tag or contradicts the first length, and a wrong length contradicts the tag
(`refused_of_tag`, `refused_of_first_length`, `refused_of_second_length`). So a wrong byte is found
in its own record (`Parts.refused_of_inWord`), or it stands in an address and the record keeps its
length (`Parts.set_bytes_of_not_inWord`). The records behind it are then read from where they
start, and they are read as before (`decodeAll_set`).
-/

namespace NetRanges

namespace Record

open Range (recordsEnd)

variable {f : Family} {w u a v b : Bytes} {rs : List Range} {i j : Nat}

/-- Byte `i` of a record of the family belongs to one of its three words, and to no address. -/
def InWord (f : Family) (i : Nat) : Prop :=
  i < 8 ∨ 8 + f.bytes ≤ i ∧ i < 12 + f.bytes

/-! ## Wrong words -/

/-- Three words and two addresses as they stand in a record. -/
def layout (tag firstLength first secondLength second : Bytes) : Bytes :=
  tag ++ (firstLength ++ first) ++ (secondLength ++ second)

/-- The record is refused for a flaw, whatever follows it. -/
def Refused (bs : Bytes) : Prop :=
  ∃ e, Flawed e ∧ ∀ rest, range (bs ++ rest) = .error e

theorem address_wrong_length (hlen : w.length = 4) (h : w ≠ .word f.bytes) (rest : Bytes) :
    address f (w ++ rest) = .error (.wrongLength f.bytes w.signed) := by
  have hne : w.signed ≠ f.bytes := fun hs => h (Bytes.eq_word_of_signed hlen hs)
  unfold address
  rw [word_append hlen]
  simp only [bind, Except.bind, hne, if_false]

/-- A wrong tag is unknown, or the length behind it is not that of the family it names. -/
theorem refused_of_tag (hlen : w.length = 4) (h : w ≠ .word f.bytes) :
    Refused (layout w (.word f.bytes) a v b) := by
  cases htag : Family.ofTag? w.signed with
  | none =>
    refine ⟨_, .unknownTag w.signed, fun rest => bind_eq_error_iff.mpr (.inl ?_)⟩
    unfold family layout
    simp only [List.append_assoc, word_append hlen, bind, Except.bind, htag]
  | some g =>
    have hw : w = .word g.bytes :=
      Bytes.eq_word_of_signed hlen (Family.ofTag?_eq_some_iff.mp htag)
    have hne : Bytes.word f.bytes ≠ .word g.bytes := fun heq => h (hw.trans heq.symm)
    refine ⟨_, .wrongLength g.bytes (Bytes.word f.bytes).signed, fun rest => ?_⟩
    have hread := address_wrong_length (Bytes.length_word f.bytes) hne (a ++ (v ++ b) ++ rest)
    unfold layout
    rw [hw]
    simp only [List.append_assoc] at hread ⊢
    exact bind_eq_error_iff.mpr
      (.inr ⟨_, family_eq_ok_iff.mpr rfl, bind_eq_error_iff.mpr (.inl hread)⟩)

theorem refused_of_first_length (hlen : w.length = 4) (h : w ≠ .word f.bytes) :
    Refused (layout (.word f.bytes) w a v b) := by
  refine ⟨_, .wrongLength f.bytes w.signed, fun rest => ?_⟩
  have hread := address_wrong_length hlen h (a ++ (v ++ b) ++ rest)
  unfold layout
  simp only [List.append_assoc] at hread ⊢
  exact bind_eq_error_iff.mpr
    (.inr ⟨_, family_eq_ok_iff.mpr rfl, bind_eq_error_iff.mpr (.inl hread)⟩)

theorem refused_of_second_length (ha : a.length = f.bytes) (hlen : w.length = 4)
    (h : w ≠ .word f.bytes) : Refused (layout (.word f.bytes) (.word f.bytes) a w b) := by
  refine ⟨_, .wrongLength f.bytes w.signed, fun rest => ?_⟩
  have hfirst := address_append ha (w ++ (b ++ rest))
  have hread := address_wrong_length hlen h (b ++ rest)
  unfold layout
  simp only [List.append_assoc] at hfirst ⊢
  exact bind_eq_error_iff.mpr (.inr ⟨_, family_eq_ok_iff.mpr rfl,
    bind_eq_error_iff.mpr (.inr ⟨_, hfirst, bind_eq_error_iff.mpr (.inl hread)⟩)⟩)

/-! ## One record -/

theorem set_layout (htag : w.length = 4) (hu : u.length = 4) (hv : v.length = 4)
    (ha : a.length = f.bytes) (i : Nat) (x : UInt8) :
    (layout w u a v b).set i x =
      if i < 4 then layout (w.set i x) u a v b
      else if i < 8 then layout w (u.set (i - 4) x) a v b
      else if i < 8 + f.bytes then layout w u (a.set (i - 8) x) v b
      else if i < 12 + f.bytes then layout w u a (v.set (i - (8 + f.bytes)) x) b
      else layout w u a v (b.set (i - (12 + f.bytes)) x) := by
  have hsecond : i - (4 + (4 + f.bytes)) = i - (8 + f.bytes) := by omega
  have hlast : i - (8 + f.bytes) - 4 = i - (12 + f.bytes) := by omega
  unfold layout
  simp only [List.set_append, List.length_append, htag, hu, hv, ha, hsecond, hlast]
  split_ifs <;> first | rfl | omega

theorem Parts.set_bytes (p : Parts) (i : Nat) (x : UInt8) :
    p.bytes.set i x = (layout (.word p.family.bytes) (.word p.family.bytes) p.first
      (.word p.family.bytes) p.second).set i x :=
  rfl

theorem Parts.set_bytes_of_not_inWord (p : Parts) (h : ¬ InWord p.family i) (x : UInt8) :
    ∃ q : Parts, q.family = p.family ∧ p.bytes.set i x = q.bytes := by
  have hword : (Bytes.word p.family.bytes).length = 4 := Bytes.length_word _
  have hset := set_layout (b := p.second) hword hword hword p.length_first i x
  rw [← p.set_bytes] at hset
  unfold InWord at h
  -- One case for each part of the record, in their order; the three words are excluded.
  split_ifs at hset
  · omega
  · omega
  · exact ⟨⟨p.family, p.first.set (i - 8) x, p.second, List.length_set.trans p.length_first,
      p.length_second⟩, rfl, hset⟩
  · omega
  · exact ⟨⟨p.family, p.first, p.second.set (i - (12 + p.family.bytes)) x, p.length_first,
      List.length_set.trans p.length_second⟩, rfl, hset⟩

theorem Parts.refused_of_inWord (p : Parts) {x : UInt8} (h : InWord p.family i)
    (hx : p.bytes[i]? ≠ some x) : Refused (p.bytes.set i x) := by
  have hword : (Bytes.word p.family.bytes).length = 4 := Bytes.length_word _
  have hwrong (j : Nat) : ((Bytes.word p.family.bytes).set j x).length = 4 :=
    List.length_set.trans hword
  have hi : i < p.bytes.length := by
    rw [p.length_bytes]
    unfold InWord at h
    show i < 3 * 4 + 2 * p.family.bytes
    omega
  have hother : p.bytes.set i x ≠ p.bytes := by
    intro heq
    rw [← heq, List.getElem?_set_self hi] at hx
    exact hx rfl
  have hset := set_layout (b := p.second) hword hword hword p.length_first i x
  rw [← p.set_bytes] at hset
  unfold InWord at h
  -- One case for each part of the record, in their order; the two addresses are excluded.
  split_ifs at hset
  · rw [hset]
    refine refused_of_tag (hwrong i) fun h => hother ?_
    rw [hset, h]
    rfl
  · rw [hset]
    refine refused_of_first_length (hwrong _) fun h => hother ?_
    rw [hset, h]
    rfl
  · omega
  · rw [hset]
    refine refused_of_second_length p.length_first (hwrong _) fun h => hother ?_
    rw [hset, h]
    rfl
  · omega

/-- A changed byte leaves a record of the same family, or it is found, but never both. -/
theorem Parts.set_bytes_cases (p : Parts) (i : Nat) (x : UInt8) :
    (p.bytes[i]? = some x ∨ ¬ InWord p.family i) ∧
        (∃ q : Parts, q.family = p.family ∧ p.bytes.set i x = q.bytes) ∨
      ¬ (p.bytes[i]? = some x ∨ ¬ InWord p.family i) ∧ Refused (p.bytes.set i x) := by
  by_cases hx : p.bytes[i]? = some x
  · obtain ⟨hlt, rfl⟩ := List.getElem?_eq_some_iff.mp hx
    exact .inl ⟨.inl hx, p, rfl, List.set_getElem_self hlt⟩
  · by_cases hin : InWord p.family i
    · exact .inr ⟨not_or.mpr ⟨hx, not_not_intro hin⟩, p.refused_of_inWord hin hx⟩
    · exact .inl ⟨.inr hin, p.set_bytes_of_not_inWord hin x⟩

/-! ## Lists of records -/

/-- Where the record of `r` starts and ends among the records of a list. -/
theorem recordsEnd_append (before : List Range) (r : Range) (after : List Range) :
    recordsEnd (before ++ r :: after) before.length = (Range.records before).length ∧
      recordsEnd (before ++ r :: after) (before.length + 1) =
        (Range.records before).length + r.record.length := by
  unfold recordsEnd
  constructor
  · rw [length_records, List.take_left]
  · rw [length_records, Range.length_record, List.take_length_add_append, List.map_append,
      List.sum_append]
    rfl

theorem records_append (before : List Range) (r : Range) (after : List Range) :
    Range.records (before ++ r :: after) =
      Range.records before ++ (r.record ++ Range.records after) :=
  List.flatMap_append

theorem getElem?_records_append (before : List Range) {r : Range} (hj : j < r.record.length)
    (after : List Range) :
    (Range.records (before ++ r :: after))[(Range.records before).length + j]? = r.record[j]? := by
  rw [records_append, List.getElem?_append_right (Nat.le_add_right ..), Nat.add_sub_cancel_left,
    List.getElem?_append_left hj]

theorem set_records_append (before : List Range) {r : Range} (hj : j < r.record.length)
    (after : List Range) (x : UInt8) :
    (Range.records (before ++ r :: after)).set ((Range.records before).length + j) x =
      Range.records before ++ (r.record.set j x ++ Range.records after) := by
  rw [records_append, List.set_append_right _ _ (Nat.le_add_right ..), Nat.add_sub_cancel_left,
    List.set_append_left _ _ hj]

theorem exists_place (hi : i < (Range.records rs).length) : ∃ before r after j,
    rs = before ++ r :: after ∧ j < r.record.length ∧ i = (Range.records before).length + j := by
  induction rs generalizing i with
  | nil => exact absurd hi (Nat.not_lt_zero i)
  | cons r rs ih =>
    rcases Nat.lt_or_ge i r.record.length with hlt | hge
    · exact ⟨[], r, rs, i, rfl, hlt, (Nat.zero_add i).symm⟩
    · have hall : (Range.records (r :: rs)).length = r.record.length + (Range.records rs).length :=
        List.length_append
      obtain ⟨before, s, after, j, rfl, hj, hplace⟩ := ih (i := i - r.record.length) (by omega)
      have hfront : (Range.records (r :: before)).length =
          r.record.length + (Range.records before).length := List.length_append
      exact ⟨r :: before, s, after, j, rfl, hj, by omega⟩

/-- The record of `r` is damaged at byte `j`: either its flaw is found, or a range is read in place
of `r` and all others are read as before. -/
theorem decodeAll_damaged_cases (before : List Range) (r : Range) (after : List Range) (j : Nat)
    (x : UInt8) :
    (r.record[j]? = some x ∨ ¬ InWord r.family j) ∧ (∃ r', r'.family = r.family ∧
        decodeAll (Range.records before ++ (r.record.set j x ++ Range.records after)) =
          .ok (before ++ r' :: after)) ∨
      ¬ (r.record[j]? = some x ∨ ¬ InWord r.family j) ∧ ∃ e, Flawed e ∧
        decodeAll (Range.records before ++ (r.record.set j x ++ Range.records after)) =
          .error e := by
  rw [decodeAll_append (decodeAll_records before)]
  rcases (Parts.ofRange r).set_bytes_cases j x with ⟨hplace, q, hfam, hset⟩ | ⟨hplace, e, he, hread⟩
  · refine .inl ⟨hplace, q.range, hfam, ?_⟩
    rw [← Parts.bytes_ofRange, hset, decodeAll_of_ok (range_bytes_append q _), decodeAll_records]
    rfl
  · refine .inr ⟨hplace, e, he, ?_⟩
    have hne : r.record.set j x ++ Range.records after ≠ [] := by
      rw [← List.length_pos_iff, List.length_append, List.length_set, Range.length_record]
      unfold Range.recordLength
      omega
    rw [decodeAll_of_error hne (hread _)]
    rfl

/-- **One wrong byte.** A byte of a list of records stands in the record of one of the ranges. If
any byte is put in its place, either an unknown tag or a wrong length is found, or that range is
read as another one of its family and all others are read as before; the bytes never end early.
The list is read to its end exactly if the byte is the same as before or belongs to an address. -/
theorem decodeAll_set (rs : List Range) (x : UInt8) (hi : i < (Range.records rs).length) :
    ∃ k r, rs[k]? = some r ∧ recordsEnd rs k ≤ i ∧ i < recordsEnd rs (k + 1) ∧
      ((∃ tag, decodeAll ((Range.records rs).set i x) = .error (.unknownTag tag)) ∨
        (∃ expected found,
          decodeAll ((Range.records rs).set i x) = .error (.wrongLength expected found)) ∨
        ∃ r', r'.family = r.family ∧ decodeAll ((Range.records rs).set i x) = .ok (rs.set k r')) ∧
      ((∃ rs', decodeAll ((Range.records rs).set i x) = .ok rs') ↔
        (Range.records rs)[i]? = some x ∨ ¬ InWord r.family (i - recordsEnd rs k)) ∧
      ∀ needed available,
        decodeAll ((Range.records rs).set i x) ≠ .error (.truncated needed available) := by
  obtain ⟨before, r, after, j, rfl, hj, rfl⟩ := exists_place hi
  obtain ⟨hstart, hend⟩ := recordsEnd_append before r after
  have hk : (before ++ r :: after)[before.length]? = some r := by
    rw [List.getElem?_append_right (Nat.le_refl _), Nat.sub_self]
    rfl
  refine ⟨before.length, r, hk, by omega, by omega, ?_⟩
  rw [set_records_append before hj, getElem?_records_append before hj, hstart,
    Nat.add_sub_cancel_left]
  rcases decodeAll_damaged_cases before r after j x with
    ⟨hplace, r', hfam, hread⟩ | ⟨hplace, e, hflawed, hread⟩
  · have hset : (before ++ r :: after).set before.length r' = before ++ r' :: after := by
      rw [List.set_append_right _ _ (Nat.le_refl _), Nat.sub_self]
      rfl
    rw [hread]
    exact ⟨.inr (.inr ⟨r', hfam, congrArg Except.ok hset.symm⟩), iff_of_true ⟨_, rfl⟩ hplace, nofun⟩
  · rw [hread]
    refine ⟨?_, iff_of_false nofun hplace, ?_⟩
    · cases hflawed with
      | unknownTag tag => exact .inl ⟨tag, rfl⟩
      | wrongLength expected found => exact .inr (.inl ⟨expected, found, rfl⟩)
    · rintro needed available h
      cases h
      cases hflawed

/-- Two ranges of different families. The tag of the first record is turned into the other tag,
which is found; its lower end is moved above its upper end, which is not, and the second range is
read as before. -/
theorem decodeAll_set_of_two :
    let xs := [Range.single (.ofNat .v4 1), Range.spanning .v6 0 9]
    (¬ ∃ rs', decodeAll ((Range.records xs).set 3 16) = .ok rs') ∧
      ∃ r, decodeAll ((Range.records xs).set 8 9) = .ok [r, Range.spanning .v6 0 9] := by
  intro xs
  have hlen : (Range.records xs).length = 64 := length_records xs
  have hfirst {i k : Nat} (hi : i < 20) (hk : recordsEnd xs k ≤ i) : k = 0 := by
    cases k with
    | zero => rfl
    | succ k =>
      have hend : recordsEnd xs (k + 1) = 20 + recordsEnd [Range.spanning .v6 0 9] k :=
        Range.recordsEnd_succ ..
      omega
  obtain ⟨k, r, hr, htag, -, -, hfound, -⟩ := decodeAll_set xs 16 (i := 3) (by omega)
  obtain ⟨m, s, hs, haddress, -, hcases, hread, -⟩ := decodeAll_set xs 9 (i := 8) (by omega)
  obtain rfl := hfirst (by decide) htag
  obtain rfl := hfirst (by decide) haddress
  cases hr
  cases hs
  constructor
  · rw [hfound]
    rintro (h | h)
    · exact absurd h (by decide)
    · exact h (.inl (by decide))
  · obtain ⟨rs', hok⟩ := hread.mpr (.inr (by unfold InWord; decide))
    rcases hcases with ⟨tag, herror⟩ | ⟨expected, found, herror⟩ | ⟨r', -, hr'⟩
    · cases hok.symm.trans herror
    · cases hok.symm.trans herror
    · exact ⟨r', hr'⟩

end Record

end NetRanges
