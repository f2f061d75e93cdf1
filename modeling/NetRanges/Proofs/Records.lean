import Mathlib.Algebra.Ring.Nat
import NetRanges.Proofs.Readers

/-!
# The language of records

`Parts` lists what may be chosen freely in a record: the family, and the bytes of two addresses in
either order. The reader of records accepts exactly the bytes made of some parts, and what it reads
is the range between the two addresses (`range_eq_ok_iff`). All else follows from this: a written
range reads back (`reads_back`), a list of records is read to its end (`decodeAll_eq_ok_iff`), and
writing again what was read only puts the two addresses in order (`Parts.record_range`).
-/

namespace NetRanges

theorem Bytes.toNat_lt_size {bs : Bytes} {f : Family} (h : bs.length = f.bytes) :
    bs.toNat < f.size := by
  rw [Family.size_eq_pow_bytes, ← h]
  exact bs.toNat_lt

namespace Record

/-- What one record holds: a family, and two addresses of it as bytes. -/
@[ext] structure Parts where
  family : Family
  first : Bytes
  second : Bytes
  length_first : first.length = family.bytes
  length_second : second.length = family.bytes

namespace Parts

/-- The tag of the family, then each address after its length. -/
def bytes (p : Parts) : Bytes :=
  .word p.family.bytes ++ (.word p.family.bytes ++ p.first) ++ (.word p.family.bytes ++ p.second)

/-- The range from the smaller one of the two addresses to the larger one. -/
def range (p : Parts) : Range where
  family := p.family
  first := min p.first.toNat p.second.toNat
  last := max p.first.toNat p.second.toNat
  first_le_last := by omega
  last_lt := Nat.max_lt.mpr ⟨Bytes.toNat_lt_size p.length_first, Bytes.toNat_lt_size p.length_second⟩

/-- The same record with its two addresses exchanged. -/
def exchanged (p : Parts) : Parts :=
  ⟨p.family, p.second, p.first, p.length_second, p.length_first⟩

/-- The parts of the record that is written for a range. -/
def ofRange (r : Range) : Parts :=
  ⟨r.family, r.lower.bytes, r.upper.bytes, Bytes.length_ofNat .., Bytes.length_ofNat ..⟩

theorem bytes_ofRange (r : Range) : (ofRange r).bytes = r.record := rfl

variable {p : Parts}

theorem length_bytes (p : Parts) : p.bytes.length = p.range.recordLength := by
  have hfirst := p.length_first
  have hsecond := p.length_second
  have hfam : p.range.family = p.family := rfl
  unfold bytes Range.recordLength
  simp only [List.length_append, Bytes.length_word, hfam]
  omega

theorem range_ofRange (r : Range) : (ofRange r).range = r := by
  have hlower : (ofRange r).first.toNat = r.first :=
    Bytes.toNat_ofNat (Family.size_eq_pow_bytes r.family ▸ r.first_lt)
  have hupper : (ofRange r).second.toNat = r.last :=
    Bytes.toNat_ofNat (Family.size_eq_pow_bytes r.family ▸ r.last_lt)
  have hle := r.first_le_last
  refine Range.eq_of_ends_eq ?_ ?_ ?_
  · rfl
  · show min (ofRange r).first.toNat (ofRange r).second.toNat = r.first
    omega
  · show max (ofRange r).first.toNat (ofRange r).second.toNat = r.last
    omega

/-- Two addresses of the family bound the range of the record. -/
theorem between_eq (p : Parts) :
    Range.between (.ofNat p.family p.first.toNat) (.ofNat p.family p.second.toNat) =
      .ok p.range := by
  have hfirst : (Address.ofNat p.family p.first.toNat).value = p.first.toNat :=
    Address.value_ofNat (Bytes.toNat_lt_size p.length_first)
  have hsecond : (Address.ofNat p.family p.second.toNat).value = p.second.toNat :=
    Address.value_ofNat (Bytes.toNat_lt_size p.length_second)
  refine Range.between_eq_ok_iff.mpr ⟨rfl, rfl, ?_, ?_⟩
  · rw [hfirst, hsecond]
    rfl
  · rw [hfirst, hsecond]
    rfl

/-! ## Writing again what was read -/

theorem ofRange_range (h : p.first.toNat ≤ p.second.toNat) : ofRange p.range = p := by
  refine Parts.ext ?_ ?_ ?_
  · rfl
  · show Bytes.ofNat p.family.bytes (min p.first.toNat p.second.toNat) = p.first
    rw [Nat.min_eq_left h, Bytes.ofNat_toNat_of_length p.length_first]
  · show Bytes.ofNat p.family.bytes (max p.first.toNat p.second.toNat) = p.second
    rw [Nat.max_eq_right h, Bytes.ofNat_toNat_of_length p.length_second]

theorem range_exchanged (p : Parts) : p.exchanged.range = p.range :=
  Range.eq_of_ends_eq rfl (Nat.min_comm ..) (Nat.max_comm ..)

/-- What is read from addresses in order is written as it was. -/
theorem record_range (h : p.first.toNat ≤ p.second.toNat) : p.range.record = p.bytes := by
  rw [← bytes_ofRange, ofRange_range h]

/-- What is read from addresses in reverse order is written with the two exchanged. -/
theorem record_range_of_reversed (h : p.second.toNat ≤ p.first.toNat) :
    p.range.record = p.exchanged.bytes := by
  rw [← range_exchanged]
  exact record_range h

theorem second_eq_of_exchanged (h : p.exchanged.bytes = p.bytes) : p.second = p.first := by
  unfold bytes exchanged at h
  simp only [List.append_assoc, List.append_cancel_left_eq] at h
  exact (List.append_inj h (p.length_second.trans p.length_first.symm)).1

theorem record_range_iff : p.range.record = p.bytes ↔ p.first.toNat ≤ p.second.toNat := by
  constructor
  · intro h
    rcases Nat.le_total p.first.toNat p.second.toNat with hle | hge
    · exact hle
    · rw [record_range_of_reversed hge] at h
      exact Nat.le_of_eq (congrArg Bytes.toNat (second_eq_of_exchanged h).symm)
  · exact record_range

end Parts

/-! ## One record -/

variable {bs rest : Bytes} {r : Range} {rs : List Range} {k : Nat}

theorem family_of_address {f : Family} {a : Address} (h : address f bs = .ok (a, rest)) :
    a.family = f := by
  obtain ⟨body, -, rfl, -⟩ := address_eq_ok_iff.mp h
  rfl

theorem range_bytes_append (p : Parts) (rest : Bytes) :
    range (p.bytes ++ rest) = .ok (p.range, rest) := by
  have hfam : family (p.bytes ++ rest) = .ok (p.family,
      .word p.family.bytes ++ p.first ++ (.word p.family.bytes ++ p.second ++ rest)) := by
    rw [family_eq_ok_iff]
    simp only [Parts.bytes, List.append_assoc]
  have hfirst := address_append p.length_first (.word p.family.bytes ++ p.second ++ rest)
  have hsecond := address_append p.length_second rest
  exact bind_eq_ok_iff.mpr ⟨_, hfam, bind_eq_ok_iff.mpr ⟨_, hfirst,
    bind_eq_ok_iff.mpr ⟨_, hsecond, bind_eq_ok_iff.mpr ⟨_, p.between_eq, rfl⟩⟩⟩⟩

/-- The reader of records takes the bytes of some parts for the range of these. -/
theorem range_eq_ok_iff :
    range bs = .ok (r, rest) ↔ ∃ p : Parts, p.range = r ∧ bs = p.bytes ++ rest := by
  constructor
  · intro h
    obtain ⟨⟨f, bs₁⟩, hfam, h⟩ := bind_eq_ok_iff.mp h
    obtain ⟨⟨a, bs₂⟩, hfirst, h⟩ := bind_eq_ok_iff.mp h
    obtain ⟨⟨b, bs₃⟩, hsecond, h⟩ := bind_eq_ok_iff.mp h
    obtain ⟨s, hbetween, h⟩ := bind_eq_ok_iff.mp h
    cases h
    obtain rfl := family_eq_ok_iff.mp hfam
    obtain ⟨first, hlen₁, rfl, rfl⟩ := address_eq_ok_iff.mp hfirst
    obtain ⟨second, hlen₂, rfl, rfl⟩ := address_eq_ok_iff.mp hsecond
    refine ⟨⟨f, first, second, hlen₁, hlen₂⟩, ?_, ?_⟩
    · rw [Parts.between_eq ⟨f, first, second, hlen₁, hlen₂⟩] at hbetween
      exact Except.ok.inj hbetween
    · simp only [Parts.bytes, List.append_assoc]
  · rintro ⟨p, rfl, rfl⟩
    exact range_bytes_append p rest

/-- Both addresses of a record belong to the family of its tag, so they always span a range. -/
theorem steady_range : Steady range := by
  refine steady_family.bind fun _ f _ _ => ?_
  refine (steady_address f).bind fun _ a _ ha => ?_
  refine (steady_address f).bind fun _ b _ hb => ?_
  have hfam : a.family = b.family := (family_of_address ha).trans (family_of_address hb).symm
  have hbetween : Range.between a b = .ok (.spanning a.family a.value b.value) := if_pos hfam
  simp only [hbetween]
  exact .ok _

theorem decode_eq_ok_iff : decode bs = .ok r ↔ ∃ p : Parts, p.bytes = bs ∧ p.range = r := by
  constructor
  · intro h
    obtain ⟨⟨s, rest⟩, hread, hend⟩ := bind_eq_ok_iff.mp h
    obtain ⟨p, hp, hbs⟩ := range_eq_ok_iff.mp hread
    cases rest with
    | nil =>
      cases hend
      exact ⟨p, by rw [hbs, List.append_nil], hp⟩
    | cons _ _ => cases hend
  · rintro ⟨p, rfl, rfl⟩
    refine bind_eq_ok_iff.mpr ⟨(p.range, []), ?_, rfl⟩
    rw [← range_bytes_append p [], List.append_nil]

/-- The only fault besides those of the record itself is that something follows it. -/
theorem decode_error_cases {e : Error} (h : decode bs = .error e) :
    range bs = .error e ∨ ∃ (p : Parts) (rest : Bytes),
      bs = p.bytes ++ rest ∧ 0 < rest.length ∧ e = .trailingBytes rest.length := by
  unfold decode at h
  cases hread : range bs with
  | error e' =>
    rw [hread] at h
    cases h
    exact Or.inl rfl
  | ok z =>
    obtain ⟨s, rest⟩ := z
    obtain ⟨p, -, hbs⟩ := range_eq_ok_iff.mp hread
    rw [hread] at h
    cases rest with
    | nil => cases h
    | cons b rest =>
      cases h
      exact Or.inr ⟨p, b :: rest, hbs, Nat.succ_pos _, rfl⟩

theorem decode_bytes_append (p : Parts) {rest : Bytes} (hpos : 0 < rest.length) :
    decode (p.bytes ++ rest) = .error (.trailingBytes rest.length) := by
  have hempty : rest.isEmpty = false := List.isEmpty_eq_false_iff.mpr (List.length_pos_iff.mp hpos)
  unfold decode
  rw [range_bytes_append]
  simp only [bind, Except.bind, hempty, Bool.false_eq_true, if_false]

/-- Bytes are left over exactly when they stand behind a whole record. -/
theorem decode_eq_trailingBytes_iff : decode bs = .error (.trailingBytes k) ↔
    ∃ (p : Parts) (rest : Bytes), bs = p.bytes ++ rest ∧ rest.length = k ∧ 0 < k := by
  constructor
  · intro h
    rcases decode_error_cases h with hread | ⟨p, rest, hbs, hpos, he⟩
    · have hne := (steady_range.fault hread).ne_trailingBytes_and_familyMismatch
      exact absurd rfl (hne.1 k)
    · cases he
      exact ⟨p, rest, hbs, rfl, hpos⟩
  · rintro ⟨p, rest, rfl, rfl, hpos⟩
    exact decode_bytes_append p hpos

theorem decode_ne_familyMismatch (bs : Bytes) (a b : Address) :
    decode bs ≠ .error (.familyMismatch a b) := by
  intro h
  rcases decode_error_cases h with hread | ⟨_, _, -, -, he⟩
  · have hne := (steady_range.fault hread).ne_trailingBytes_and_familyMismatch
    exact absurd rfl (hne.2 a b)
  · cases he

/-! ## Lists of records -/

theorem decodeAll_nil : decodeAll [] = .ok [] := by
  rw [decodeAll]
  rfl

theorem decodeAll_of_ok (h : range bs = .ok (r, rest)) :
    decodeAll bs = (decodeAll rest).map (r :: ·) := by
  have hne : ¬ bs.isEmpty = true := by
    rw [List.isEmpty_iff, ← List.length_eq_zero_iff]
    have := length_lt_of_range h
    omega
  rw [decodeAll, if_neg hne]
  split
  · rename_i hread
    rw [h] at hread
    cases hread
  · rename_i hread
    rw [h] at hread
    cases hread
    rfl

theorem decodeAll_of_error {e : Error} (hne : bs ≠ []) (h : range bs = .error e) :
    decodeAll bs = .error e := by
  rw [decodeAll, if_neg (by rwa [List.isEmpty_iff])]
  split
  · rename_i hread
    rw [h] at hread
    cases hread
    rfl
  · rename_i hread
    rw [h] at hread
    cases hread

/-- Records in front are read first, whatever follows them. -/
theorem decodeAll_bytes_append (ps : List Parts) (bs : Bytes) :
    decodeAll (ps.flatMap Parts.bytes ++ bs) =
      (decodeAll bs).map (ps.map Parts.range ++ ·) := by
  induction ps with
  | nil =>
    show decodeAll bs = _
    cases decodeAll bs <;> rfl
  | cons p ps ih =>
    rw [List.flatMap_cons, List.append_assoc, decodeAll_of_ok (range_bytes_append ..), ih]
    cases decodeAll bs <;> rfl

/-- All bytes are read exactly when they are some records one after the other. -/
theorem decodeAll_eq_ok_iff : decodeAll bs = .ok rs ↔
    ∃ ps : List Parts, ps.flatMap Parts.bytes = bs ∧ ps.map Parts.range = rs := by
  constructor
  · intro h
    fun_induction decodeAll bs generalizing rs with
    | case1 bs hempty =>
      cases h
      exact ⟨[], (List.isEmpty_iff.mp hempty).symm, rfl⟩
    | case2 bs _ e hread => cases h
    | case3 bs _ r rest hread _ ih =>
      obtain ⟨rs', hrest, rfl⟩ := map_eq_ok_iff.mp h
      obtain ⟨p, rfl, rfl⟩ := range_eq_ok_iff.mp hread
      obtain ⟨ps, rfl, rfl⟩ := ih hrest
      exact ⟨p :: ps, List.flatMap_cons, List.map_cons⟩
  · rintro ⟨ps, rfl, rfl⟩
    have h := decodeAll_bytes_append ps []
    rw [List.append_nil, decodeAll_nil] at h
    rw [h]
    exact congrArg Except.ok (List.append_nil _)

/-- A fault in a list of records is a fault of one of them. -/
theorem decodeAll_fault {e : Error} (h : decodeAll bs = .error e) : Fault decodeAll bs e := by
  fun_induction decodeAll bs with
  | case1 bs _ => cases h
  | case2 bs hne e' hread =>
    cases h
    have hbs : bs ≠ [] := fun hnil => hne (List.isEmpty_iff.mpr hnil)
    refine (steady_range.fault hread).imp fun more hmore => decodeAll_of_error ?_ hmore
    exact List.append_ne_nil_of_left_ne_nil hbs more
  | case3 bs _ r rest hread _ ih =>
    cases hrest : decodeAll rest with
    | ok rs =>
      rw [hrest] at h
      cases h
    | error e' =>
      rw [hrest] at h
      cases h
      refine (ih hrest).imp fun more hmore => ?_
      rw [decodeAll_of_ok (steady_range.ok_append hread more), hmore]
      rfl

theorem decodeAll_ne_familyMismatch (bs : Bytes) (a b : Address) :
    decodeAll bs ≠ .error (.familyMismatch a b) := by
  intro h
  exact absurd rfl ((decodeAll_fault h).ne_trailingBytes_and_familyMismatch.2 a b)

/-! ## Reading what is written, and writing what is read -/

theorem decode_record (r : Range) : decode r.record = .ok r :=
  decode_eq_ok_iff.mpr ⟨.ofRange r, Parts.bytes_ofRange r, Parts.range_ofRange r⟩

theorem decodeAll_records (rs : List Range) : decodeAll (Range.records rs) = .ok rs := by
  refine decodeAll_eq_ok_iff.mpr ⟨rs.map Parts.ofRange, ?_, ?_⟩
  · rw [List.flatMap_map]
    rfl
  · rw [List.map_map]
    exact (List.map_congr_left fun r _ => Parts.range_ofRange r).trans (List.map_id rs)

theorem length_records (rs : List Range) :
    (Range.records rs).length = (rs.map Range.recordLength).sum := by
  rw [Range.records, List.length_flatMap]
  exact congrArg List.sum (List.map_congr_left fun r _ => Range.length_record r)

/-- **Written records read back.** The record of a range has the length that is foretold for it
and reads as that range, and so does a list of records, in its order and with repetitions. -/
theorem reads_back :
    (∀ r : Range, decode r.record = .ok r ∧ r.record.length = r.recordLength) ∧
      ∀ rs : List Range, decodeAll (Range.records rs) = .ok rs ∧
        (Range.records rs).length = (rs.map Range.recordLength).sum :=
  ⟨fun r => ⟨decode_record r, Range.length_record r⟩,
    fun rs => ⟨decodeAll_records rs, length_records rs⟩⟩

/-- A single record is a list of one. -/
theorem decode_eq_ok_iff_decodeAll : decode bs = .ok r ↔ decodeAll bs = .ok [r] := by
  rw [decode_eq_ok_iff, decodeAll_eq_ok_iff]
  constructor
  · rintro ⟨p, rfl, rfl⟩
    exact ⟨[p], List.flatMap_singleton .., rfl⟩
  · rintro ⟨ps, rfl, hps⟩
    obtain ⟨p, rfl, rfl⟩ := List.map_eq_singleton_iff.mp hps
    exact ⟨p, (List.flatMap_singleton ..).symm, rfl⟩

/-- **The language of records.** Bytes are read as one range exactly when they are one record, and
as a list of ranges exactly when they are such records one after the other. A whole record with
bytes behind it is told apart from every other fault, and the two addresses of a record never
belong to different families. What was read is written with as many bytes; these are the same
bytes if the first address was the smaller one, and otherwise its two addresses are exchanged. -/
theorem accepts_exactly_records (bs : Bytes) :
    (∀ r, decode bs = .ok r ↔ ∃ p : Parts, p.bytes = bs ∧ p.range = r) ∧
      (∀ p : Parts, p.bytes = bs → p.range.record.length = bs.length ∧
        (p.range.record = bs ↔ p.first.toNat ≤ p.second.toNat) ∧
        (¬ p.first.toNat ≤ p.second.toNat → p.range.record = p.exchanged.bytes)) ∧
      (∀ rs, decodeAll bs = .ok rs ↔
        ∃ ps : List Parts, ps.flatMap Parts.bytes = bs ∧ ps.map Parts.range = rs) ∧
      (∀ r, decode bs = .ok r ↔ decodeAll bs = .ok [r]) ∧
      (∀ k, decode bs = .error (.trailingBytes k) ↔
        ∃ (p : Parts) (rest : Bytes), bs = p.bytes ++ rest ∧ rest.length = k ∧ 0 < k) ∧
      ∀ a b, decode bs ≠ .error (.familyMismatch a b) ∧
        decodeAll bs ≠ .error (.familyMismatch a b) := by
  refine ⟨fun r => decode_eq_ok_iff, ?_, fun rs => decodeAll_eq_ok_iff,
    fun r => decode_eq_ok_iff_decodeAll, fun k => decode_eq_trailingBytes_iff, fun a b => ?_⟩
  · rintro p rfl
    refine ⟨?_, Parts.record_range_iff, fun h => ?_⟩
    · rw [Range.length_record, Parts.length_bytes]
    · exact Parts.record_range_of_reversed (Nat.le_of_not_le h)
  · exact ⟨decode_ne_familyMismatch bs a b, decodeAll_ne_familyMismatch bs a b⟩

end Record

end NetRanges
