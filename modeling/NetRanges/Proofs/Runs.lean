import Mathlib.Data.Set.Card
import NetRanges.Proofs.Answers
import NetRanges.Proofs.Partition

/-!
# Runs of addresses

A run of a set of addresses has addresses of one family in a row, all of them in the set, and
neither the address before them nor the one after them is in it. Extents with gaps are the runs of
what they hold (`Extent.Gapped.mem_iff`), so the ranges that a set gives back when it has joined its
ranges are the runs of all addresses in them, each once (`RangeSet.ncard_runs`).
-/

namespace NetRanges

/-- Addresses of one family in a row that belong to a set, and all that there are in the row. -/
structure IsRun (S : Set Address) (r : Range) : Prop where
  subset : ∀ a, r.contains a false = true → a ∈ S
  before : ∀ a ∈ S, a.family = r.family → a.value + 1 ≠ r.first
  after : ∀ a ∈ S, a.family = r.family → a.value ≠ r.last + 1

namespace Extent.Gapped

variable {d e : Extent} {es : List Extent}

theorem eq_or_apart (h : Gapped es) (hd : d ∈ es) (he : e ∈ es) :
    d = e ∨ d.last + 1 < e.first ∨ e.last + 1 < d.first := by
  obtain ⟨i, hi, rfl⟩ := List.getElem_of_mem hd
  obtain ⟨j, hj, rfl⟩ := List.getElem_of_mem he
  have hgap := List.pairwise_iff_getElem.mp h.gap
  rcases Nat.lt_trichotomy i j with hlt | rfl | hgt
  · exact Or.inr (Or.inl (hgap i j hi hj hlt))
  · exact Or.inl rfl
  · exact Or.inr (Or.inr (hgap j i hj hi hgt))

/-- The values next to an extent are free. -/
theorem ne_of_mem (h : Gapped es) (he : e ∈ es) {v : Nat} (hv : ∃ d ∈ es, v ∈ d) :
    v + 1 ≠ e.first ∧ v ≠ e.last + 1 := by
  obtain ⟨d, hd, hvd⟩ := hv
  have hle := h.first_le_last e he
  rw [Extent.mem_iff] at hvd
  rcases h.eq_or_apart hd he with rfl | hlt | hgt
  · omega
  · omega
  · omega

/-- Extents with gaps are what their values make up without a free value in between. -/
theorem mem_iff (h : Gapped es) (hle : e.first ≤ e.last) :
    e ∈ es ↔ (∀ v ∈ e, ∃ d ∈ es, v ∈ d) ∧
      ∀ v, (∃ d ∈ es, v ∈ d) → v + 1 ≠ e.first ∧ v ≠ e.last + 1 := by
  constructor
  · exact fun he => ⟨fun v hv => ⟨e, he, hv⟩, fun v => h.ne_of_mem he⟩
  · rintro ⟨hheld, hfree⟩
    obtain ⟨d, hd, hfirst, hlast⟩ := hheld e.first ⟨Nat.le_refl _, hle⟩
    -- The extent that holds the first value starts no earlier and ends neither earlier nor later.
    have hstart : d.first = e.first := by
      by_contra hne
      exact (hfree (e.first - 1) ⟨d, hd, by omega, by omega⟩).1 (by omega)
    have hend : d.last = e.last := by
      rcases Nat.lt_trichotomy d.last e.last with hlt | heq | hgt
      · exact absurd rfl (h.ne_of_mem hd (hheld (d.last + 1) ⟨by omega, by omega⟩)).2
      · exact heq
      · exact absurd rfl (hfree (e.last + 1) ⟨d, hd, by omega, by omega⟩).2
    obtain ⟨first, last⟩ := d
    obtain ⟨first', last'⟩ := e
    obtain rfl : first = first' := hstart
    obtain rfl : last = last' := hend
    exact hd

end Extent.Gapped

section

variable {S : Set Address} {rs : List Range} {r : Range}
  (hS : ∀ a, a ∈ S ↔ Covered rs a.family a.value)
include hS

theorem isRun_iff : IsRun S r ↔ (∀ v ∈ r.toExtent, Covered rs r.family v) ∧
    ∀ v, Covered rs r.family v → v + 1 ≠ r.first ∧ v ≠ r.last + 1 := by
  constructor
  · rintro ⟨hsubset, hbefore, hafter⟩
    refine ⟨fun v hv => ?_, fun v hv => ?_⟩
    · have hlt : v < r.family.size := Nat.lt_of_le_of_lt hv.2 r.last_lt
      exact (hS ⟨r.family, v, hlt⟩).mp (hsubset _ (Range.contains_iff.mpr ⟨rfl, hv⟩))
    · have hmem := (hS ⟨r.family, v, hv.lt_size⟩).mpr hv
      exact ⟨hbefore _ hmem rfl, hafter _ hmem rfl⟩
  · rintro ⟨hheld, hfree⟩
    refine ⟨fun a ha => ?_, fun a ha hfam => ?_, fun a ha hfam => ?_⟩
    · obtain ⟨hfam, hv⟩ := Range.contains_iff.mp ha
      exact (hS a).mpr (hfam ▸ hheld _ hv)
    · exact (hfree _ (hfam ▸ (hS a).mp ha)).1
    · exact (hfree _ (hfam ▸ (hS a).mp ha)).2

theorem Cover.mem_ranges_iff {family : Family} :
    r ∈ (ofRanges family rs).ranges ↔ r.family = family ∧ IsRun S r := by
  rw [mem_ranges]
  refine and_congr_right ?_
  rintro rfl
  rw [(gapped_ofRanges _ rs).mem_iff r.first_le_last, isRun_iff hS]
  simp only [exists_mem_extents_iff]

theorem IntervalIndex.mem_ranges_iff : r ∈ (ofRanges rs).ranges ↔ IsRun S r := by
  show r ∈ (Cover.ofRanges .v4 rs).ranges ++ (Cover.ofRanges .v6 rs).ranges ↔ _
  rw [List.mem_append, Cover.mem_ranges_iff hS, Cover.mem_ranges_iff hS, ← or_and_right]
  apply and_iff_right
  cases r.family
  · exact Or.inl rfl
  · exact Or.inr rfl

theorem RangeSet.mem_joined_iff {options : Options} :
    r ∈ (ofRanges rs options).joined ↔ IsRun S r := by
  show r ∈ (IntervalIndex.ofRanges (ofRanges rs options).ranges).ranges ↔ _
  refine IntervalIndex.mem_ranges_iff fun a => (hS a).trans ?_
  exact covered_congr_mem fun r => mem_ranges.symm

end

theorem Cover.nodup_ranges (family : Family) (rs : List Range) :
    (ofRanges family rs).ranges.Nodup := by
  refine (pairwise_ranges family rs).imp ?_
  rintro r s hlt rfl
  exact absurd r.first_le_last (Nat.not_le_of_lt hlt)

theorem RangeSet.nodup_joined (rs : List Range) (options : Options) :
    (ofRanges rs options).joined.Nodup := by
  show ((Cover.ofRanges .v4 (ofRanges rs options).ranges).ranges ++
    (Cover.ofRanges .v6 (ofRanges rs options).ranges).ranges).Nodup
  refine List.nodup_append.mpr ⟨Cover.nodup_ranges _ _, Cover.nodup_ranges _ _, ?_⟩
  rintro r hr s hs rfl
  cases (Cover.mem_ranges.mp hr).1.symm.trans (Cover.mem_ranges.mp hs).1

/-- A set joins its ranges into as many as there are runs of the addresses in them. -/
theorem RangeSet.ncard_runs {S : Set Address} {rs : List Range} {options : Options}
    (hS : ∀ a, a ∈ S ↔ Covered rs a.family a.value) :
    {r | IsRun S r}.ncard = (ofRanges rs options).joined.length := by
  have hruns : {r | IsRun S r} = ((ofRanges rs options).joined.toFinset : Set Range) := by
    ext r
    rw [List.coe_toFinset]
    exact (mem_joined_iff hS).symm
  rw [hruns, Set.ncard_coe_finset, List.toFinset_card_of_nodup (nodup_joined rs options)]

end NetRanges
