import NetRanges.Cover.Blocks
import NetRanges.Proofs.Joining

/-!
# Cutting ranges into blocks

Each step of the cut takes a block that starts where the stretch starts and does not reach
beyond its end: its size divides the first value left (`taken_dvd_start`) and is at most the
number of values left (`taken_le_remaining`), and no larger block would do (`le_taken`). So the
blocks of a run hold exactly the values of the stretch (`exists_mem_run_iff`), and with it the
blocks of ranges hold exactly what the ranges cover (`exists_mem_covering_iff`).
-/

namespace NetRanges

/-! ## The size of the next block -/

theorem twos_le (limit n : Nat) : twos limit n ≤ limit := by
  induction limit generalizing n with
  | zero => exact Nat.le_refl _
  | succ limit ih =>
    rw [twos]
    split
    · exact Nat.succ_le_succ (ih _)
    · exact Nat.zero_le _

theorem pow_twos_dvd (limit n : Nat) : Nat.pow 2 (twos limit n) ∣ n := by
  induction limit generalizing n with
  | zero => exact Nat.one_dvd n
  | succ limit ih =>
    rw [twos]
    by_cases heven : n % 2 = 0
    · rw [if_pos heven]
      have h := Nat.mul_dvd_mul_right (ih (n / 2)) 2
      rwa [Nat.div_mul_cancel (Nat.dvd_of_mod_eq_zero heven)] at h
    · rw [if_neg heven]
      exact Nat.one_dvd n

theorem le_twos {k limit n : Nat} (hk : k ≤ limit) (hdvd : Nat.pow 2 k ∣ n) :
    k ≤ twos limit n := by
  induction limit generalizing k n with
  | zero => exact hk
  | succ limit ih =>
    cases k with
    | zero => exact Nat.zero_le _
    | succ k =>
      obtain ⟨q, rfl⟩ := hdvd
      have hpow : Nat.pow 2 (k + 1) * q = Nat.pow 2 k * q * 2 := Nat.mul_right_comm _ _ _
      rw [twos, hpow, if_pos (Nat.mul_mod_left _ _), Nat.mul_div_cancel _ Nat.two_pos]
      exact Nat.succ_le_succ (ih (Nat.le_of_succ_le_succ hk) (Nat.dvd_mul_right _ _))

namespace Stretch

/-- The values left are in order and fit the family. -/
structure Valid (s : Stretch) : Prop where
  start_le_stop : s.start ≤ s.stop
  stop_lt : s.stop < s.family.size

variable {s : Stretch}

theorem Valid.start_lt (hs : s.Valid) : s.start < s.family.size :=
  Nat.lt_of_le_of_lt hs.start_le_stop hs.stop_lt

theorem Valid.remaining_le (hs : s.Valid) : s.remaining ≤ s.family.size := by
  have := hs.stop_lt
  unfold remaining
  omega

theorem remaining_ne_zero (s : Stretch) : s.remaining ≠ 0 :=
  Nat.succ_ne_zero _

theorem Valid.log2_remaining_le (hs : s.Valid) : s.remaining.log2 ≤ s.family.bits := by
  have hlt : s.remaining < Nat.pow 2 (s.family.bits + 1) :=
    Nat.lt_of_le_of_lt hs.remaining_le (Nat.pow_lt_pow_right (by omega) (Nat.lt_succ_self _))
  exact Nat.le_of_lt_succ ((Nat.log2_lt s.remaining_ne_zero).mpr hlt)

theorem length_le (s : Stretch) : s.length ≤ s.family.bits :=
  Nat.max_le.mpr ⟨Nat.sub_le .., Nat.sub_le ..⟩

/-- The next block has as many host bits as the lower one of its two bounds. -/
theorem Valid.bits_sub_length (hs : s.Valid) :
    s.family.bits - s.length = min s.alignment s.remaining.log2 := by
  have halign : s.alignment ≤ s.family.bits := twos_le ..
  have hlog := hs.log2_remaining_le
  unfold length
  omega

theorem Valid.taken_dvd_start (hs : s.Valid) : s.taken ∣ s.start := by
  unfold taken
  rw [hs.bits_sub_length]
  exact Nat.dvd_trans (Nat.pow_dvd_pow 2 (Nat.min_le_left ..)) (pow_twos_dvd ..)

theorem Valid.taken_le_remaining (hs : s.Valid) : s.taken ≤ s.remaining := by
  unfold taken
  rw [hs.bits_sub_length]
  calc Nat.pow 2 (min s.alignment s.remaining.log2)
      ≤ Nat.pow 2 s.remaining.log2 := Nat.pow_le_pow_right (by omega) (Nat.min_le_right ..)
    _ ≤ s.remaining := Nat.log2_self_le s.remaining_ne_zero

/-- No block that starts where the stretch starts and fits into it is larger than the next one. -/
theorem Valid.le_taken {k : Nat} (hs : s.Valid) (hk : k ≤ s.family.bits)
    (hdvd : Nat.pow 2 k ∣ s.start) (hle : Nat.pow 2 k ≤ s.remaining) : Nat.pow 2 k ≤ s.taken := by
  unfold taken
  rw [hs.bits_sub_length]
  apply Nat.pow_le_pow_right Nat.two_pos
  have hlog : k ≤ s.remaining.log2 := (Nat.le_log2 s.remaining_ne_zero).mpr hle
  exact Nat.le_min.mpr ⟨le_twos hk hdvd, hlog⟩

/-- The next block starts where the stretch starts. -/
theorem Valid.extent_block (hs : s.Valid) :
    s.block.extent = ⟨s.start, s.start + (s.taken - 1)⟩ := by
  have hsize : s.block.size = s.taken := rfl
  have hvalue : s.block.address.value = s.start := Address.value_ofNat hs.start_lt
  have hstart := Nat.div_mul_cancel hs.taken_dvd_start
  unfold Block.extent
  rw [hsize, hvalue, hstart]

theorem Valid.next (hs : s.Valid) (h : s.next.start ≤ s.stop) : s.next.Valid :=
  ⟨h, hs.stop_lt⟩

/-! ## The blocks of a run -/

/-- What each step of the cut keeps holds of every stretch of a run. -/
theorem run_induction {P : Stretch → Prop} {t : Stretch}
    (hstep : ∀ u, P u → u.next.start ≤ u.stop → P u.next) (hs : P s) (h : t ∈ s.run) : P t := by
  fun_induction run s with
  | case1 s ih =>
    rcases List.mem_cons.mp h with rfl | h
    · exact hs
    · by_cases hle : s.next.start ≤ s.stop
      · rw [if_pos hle] at h
        exact ih hle (hstep s hs hle) h
      · rw [if_neg hle] at h
        cases h

theorem family_of_mem_run {t : Stretch} (h : t ∈ s.run) : t.family = s.family :=
  run_induction (P := fun u => u.family = s.family) (fun _ hu _ => hu) rfl h

/-- The blocks of a run hold exactly the values of the stretch. -/
theorem Valid.exists_mem_run_iff (hs : s.Valid) (v : Nat) :
    (∃ t ∈ s.run, v ∈ t.block.extent) ↔ s.start ≤ v ∧ v ≤ s.stop := by
  fun_induction run s with
  | case1 s ih =>
    have hpos := s.taken_pos
    have hle := hs.taken_le_remaining
    have hstop := hs.start_le_stop
    have hnext : s.next.start = s.start + s.taken := rfl
    have hblock : v ∈ s.block.extent ↔ s.start ≤ v ∧ v ≤ s.start + (s.taken - 1) := by
      rw [hs.extent_block]
      rfl
    unfold remaining at hle
    simp only [List.mem_cons, or_and_right, exists_or, exists_eq_left, hblock]
    by_cases h : s.next.start ≤ s.stop
    · have hstop' : s.next.stop = s.stop := rfl
      rw [if_pos h, ih h (hs.next h), hnext]
      omega
    · rw [if_neg h]
      simp only [List.not_mem_nil, false_and, exists_false, or_false]
      omega

end Stretch

namespace Range

variable {r : Range} {b : Block}

theorem valid_stretch (r : Range) : (Stretch.mk r.family r.first r.last).Valid :=
  ⟨r.first_le_last, r.last_lt⟩

theorem family_of_mem_blocks (h : b ∈ r.blocks) : b.family = r.family := by
  unfold blocks at h
  split at h
  · rw [List.mem_singleton.mp h]
    rfl
  · obtain ⟨t, ht, rfl⟩ := List.mem_map.mp h
    exact Stretch.family_of_mem_run ht

theorem length_le_of_mem_blocks (h : b ∈ r.blocks) : b.length ≤ b.family.bits := by
  unfold blocks at h
  split at h
  · rw [List.mem_singleton.mp h]
    exact Nat.zero_le _
  · obtain ⟨t, -, rfl⟩ := List.mem_map.mp h
    exact t.length_le

theorem blocks_ne_nil (r : Range) : r.blocks ≠ [] := by
  unfold blocks
  split
  · exact List.cons_ne_nil _ _
  · rw [Stretch.run]
    exact List.cons_ne_nil _ _

/-- The block of all addresses of a family. -/
theorem extent_whole (family : Family) :
    (Block.mk (.ofNat family 0) 0).extent = ⟨0, family.top⟩ := by
  have hsize : (Block.mk (.ofNat family 0) 0).size = family.size := rfl
  have hvalue : (Address.ofNat family 0).value = 0 := Nat.zero_mod _
  unfold Block.extent
  rw [hsize, hvalue, Nat.zero_div, Nat.zero_mul, Nat.zero_add]
  rfl

/-- The blocks of a range hold exactly its values. -/
theorem exists_mem_blocks_iff (r : Range) (v : Nat) :
    (∃ b ∈ r.blocks, v ∈ b.extent) ↔ v ∈ r.toExtent := by
  unfold blocks
  by_cases h : r.first = 0 ∧ r.last = r.family.top
  · rw [if_pos h]
    simp only [List.mem_singleton, exists_eq_left, extent_whole, Extent.mem_iff, h.1, h.2]
  · rw [if_neg h, Extent.mem_iff, ← r.valid_stretch.exists_mem_run_iff v]
    constructor
    · rintro ⟨b, hb, hv⟩
      obtain ⟨t, ht, rfl⟩ := List.mem_map.mp hb
      exact ⟨t, ht, hv⟩
    · rintro ⟨t, ht, hv⟩
      exact ⟨t.block, List.mem_map_of_mem ht, hv⟩

end Range

namespace Cover

variable {family : Family} {rs : List Range}

/-- The ranges of a cover are its extents within the family. -/
theorem mem_ranges {r : Range} :
    r ∈ (ofRanges family rs).ranges ↔
      r.family = family ∧ r.toExtent ∈ (ofRanges family rs).extents := by
  have hfam : (ofRanges family rs).family = family := by
    rw [ofRanges_eq, family_ofExtents]
  unfold ranges
  rw [List.mem_map, hfam]
  constructor
  · rintro ⟨e, he, rfl⟩
    have hle := (gapped_ofRanges family rs).first_le_last e he
    rw [Range.toExtent_spanning hle (last_lt_of_mem family rs he)]
    exact ⟨rfl, he⟩
  · rintro ⟨rfl, he⟩
    exact ⟨r.toExtent, he, r.spanning_ends⟩

/-- Each extent of a cover is one of its ranges. -/
theorem exists_mem_ranges {e : Extent} (he : e ∈ (ofRanges family rs).extents) :
    ∃ r ∈ (ofRanges family rs).ranges, r.family = family ∧ r.toExtent = e := by
  have hle := (gapped_ofRanges family rs).first_le_last e he
  have hext : (Range.spanning family e.first e.last).toExtent = e :=
    Range.toExtent_spanning hle (last_lt_of_mem family rs he)
  exact ⟨_, mem_ranges.mpr ⟨rfl, by rwa [hext]⟩, rfl, hext⟩

theorem covered_ranges {f : Family} {v : Nat} :
    Covered (ofRanges family rs).ranges f v ↔ family = f ∧ Covered rs f v := by
  constructor
  · rintro ⟨r, hr, rfl, hv⟩
    obtain ⟨rfl, he⟩ := mem_ranges.mp hr
    exact ⟨rfl, (exists_mem_extents_iff _ rs).mp ⟨_, he, hv⟩⟩
  · rintro ⟨rfl, h⟩
    obtain ⟨e, he, hv⟩ := (exists_mem_extents_iff family rs).mpr h
    obtain ⟨r, hr, hfam, rfl⟩ := exists_mem_ranges he
    exact ⟨r, hr, hfam, hv⟩

theorem family_of_mem_blocks {b : Block} (h : b ∈ (ofRanges family rs).blocks) :
    b.family = family := by
  obtain ⟨r, hr, hb⟩ := List.mem_flatMap.mp h
  rw [Range.family_of_mem_blocks hb, (mem_ranges.mp hr).1]

theorem length_le_of_mem_blocks {b : Block} (h : b ∈ (ofRanges family rs).blocks) :
    b.length ≤ b.family.bits := by
  obtain ⟨r, -, hb⟩ := List.mem_flatMap.mp h
  exact Range.length_le_of_mem_blocks hb

/-- The blocks of a cover hold what the ranges cover. -/
theorem exists_mem_blocks_iff {v : Nat} :
    (∃ b ∈ (ofRanges family rs).blocks, v ∈ b.extent) ↔ Covered rs family v := by
  have hranges : Covered (ofRanges family rs).ranges family v ↔ Covered rs family v := by
    rw [covered_ranges]
    exact and_iff_right rfl
  rw [← hranges]
  constructor
  · rintro ⟨b, hb, hv⟩
    obtain ⟨r, hr, hb⟩ := List.mem_flatMap.mp hb
    exact ⟨r, hr, (mem_ranges.mp hr).1, (r.exists_mem_blocks_iff v).mp ⟨b, hb, hv⟩⟩
  · rintro ⟨r, hr, -, hv⟩
    obtain ⟨b, hb, hv⟩ := (r.exists_mem_blocks_iff v).mpr hv
    exact ⟨b, List.mem_flatMap.mpr ⟨r, hr, hb⟩, hv⟩

end Cover

namespace Block

theorem mem_covering {rs : List Range} {b : Block} :
    b ∈ covering rs ↔ b ∈ (Cover.ofRanges b.family rs).blocks := by
  unfold covering
  rw [List.mem_append]
  constructor
  · rintro (h | h)
    · rwa [Cover.family_of_mem_blocks h]
    · rwa [Cover.family_of_mem_blocks h]
  · intro h
    cases hfam : b.family with
    | v4 => exact Or.inl (hfam ▸ h)
    | v6 => exact Or.inr (hfam ▸ h)

/-- The blocks that cover some ranges hold, family by family, what the ranges cover. -/
theorem exists_mem_covering_iff {rs : List Range} {family : Family} {v : Nat} :
    (∃ b ∈ covering rs, b.family = family ∧ v ∈ b.extent) ↔ Covered rs family v := by
  rw [← Cover.exists_mem_blocks_iff]
  constructor
  · rintro ⟨b, hb, rfl, hv⟩
    exact ⟨b, mem_covering.mp hb, hv⟩
  · rintro ⟨b, hb, hv⟩
    obtain rfl := Cover.family_of_mem_blocks hb
    exact ⟨b, mem_covering.mpr hb, rfl, hv⟩

end Block

end NetRanges
