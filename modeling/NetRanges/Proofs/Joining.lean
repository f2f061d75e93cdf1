import NetRanges.Proofs.Coverage
import NetRanges.Proofs.Gaps

/-!
# Joining ranges

The ranges are joined in one pass over both families, and each range is compared with the
last joined one only. That is enough for ranges in ascending order: joining keeps what they
cover (`covered_joinAfter`), and what it returns lies apart (`pairwise_joinAfter`), also
where a range ends before the current one does and where the family changes. Hence the
extents of a cover have gaps, its numbers fit the family, and its binary search finds
exactly what the ranges cover (`both_sound_and_holds_iff`).
-/

namespace NetRanges

theorem Family.eq_of_version_eq {f g : Family} (h : f.version = g.version) : f = g := by
  cases f <;> cases g <;> simp_all [version]

theorem Family.top_le (f : Family) : f.top ≤ Family.v6.top := by
  cases f <;> decide

namespace Range

/-- The family of `s` is a later one, or the same and `s` does not start before `r`. -/
def StartsBefore (r s : Range) : Prop :=
  r.family.version < s.family.version ∨ r.family = s.family ∧ r.first ≤ s.first

/-- The family of `s` is a later one, or the same and a value lies free before `s`. -/
def Apart (r s : Range) : Prop :=
  r.family.version < s.family.version ∨ r.family = s.family ∧ r.last + 1 < s.first

variable {r s t current : Range} {rest : List Range}

theorem startsBefore_of_le (h : r ≤ s) : StartsBefore r s := by
  rcases le_iff.mp h with hlt | ⟨heq, hext⟩
  · exact Or.inl hlt
  · refine Or.inr ⟨Family.eq_of_version_eq heq, ?_⟩
    rcases Extent.le_iff.mp hext with hlt | ⟨hfirst, -⟩
    · exact Nat.le_of_lt hlt
    · exact Nat.le_of_eq hfirst

theorem Apart.of_startsBefore (hrs : Apart r s) (hst : StartsBefore s t) : Apart r t := by
  rcases hrs with hlt | ⟨hfam, hgap⟩
  · rcases hst with hlt' | ⟨hfam', -⟩
    · exact Or.inl (Nat.lt_trans hlt hlt')
    · exact Or.inl (hfam' ▸ hlt)
  · rcases hst with hlt' | ⟨hfam', hle⟩
    · exact Or.inl (hfam ▸ hlt')
    · exact Or.inr ⟨hfam.trans hfam', Nat.lt_of_lt_of_le hgap hle⟩

/-- No value of a range is above the top of the longer family, so the bound at it is none. -/
theorem apart_of_not_meets (h : StartsBefore r s) (hm : ¬ r.Meets s) : Apart r s := by
  rcases h with hlt | ⟨hfam, -⟩
  · exact Or.inl hlt
  · refine Or.inr ⟨hfam, ?_⟩
    have hfirst : s.first ≤ s.family.top := Family.lt_size_iff.mp s.first_lt
    have htop := s.family.top_le
    have hfar : ¬ s.first ≤ min (r.last + 1) Family.v6.top := fun hle => hm ⟨hfam.symm, hle⟩
    omega

theorem mem_through (h : r.Meets s) (hle : r.first ≤ s.first) (v : Nat) :
    v ∈ (r.through s h.1).toExtent ↔ v ∈ r.toExtent ∨ v ∈ s.toExtent := by
  have hr := r.first_le_last
  have hs := s.first_le_last
  have hmeets := h.2
  simp only [Extent.mem_iff, through]
  omega

/-- A joined range starts where one of the given ranges starts. -/
theorem exists_start_of_mem_joinAfter (h : r ∈ joinAfter current rest) :
    ∃ s ∈ current :: rest, r.family = s.family ∧ r.first = s.first := by
  induction rest generalizing current with
  | nil =>
    rw [joinAfter, List.mem_singleton] at h
    exact ⟨current, List.mem_cons_self .., by rw [h], by rw [h]⟩
  | cons next rest ih =>
    rw [joinAfter] at h
    split at h
    · obtain ⟨s, hs, hfam, hfirst⟩ := ih h
      rcases List.mem_cons.mp hs with rfl | hs
      · exact ⟨current, List.mem_cons_self .., hfam, hfirst⟩
      · exact ⟨s, by simp [hs], hfam, hfirst⟩
    · rcases List.mem_cons.mp h with rfl | h
      · exact ⟨r, List.mem_cons_self .., rfl, rfl⟩
      · obtain ⟨s, hs, hfam, hfirst⟩ := ih h
        exact ⟨s, List.mem_cons_of_mem _ hs, hfam, hfirst⟩

/-- A range moved out to a later end starts where it did. -/
theorem pairwise_through {next : Range} (hm : current.Meets next)
    (h : (current :: next :: rest).Pairwise StartsBefore) :
    (current.through next hm.1 :: rest).Pairwise StartsBefore := by
  obtain ⟨hcurrent, hrest⟩ := List.pairwise_cons.mp h
  refine List.pairwise_cons.mpr ⟨fun r hr => ?_, hrest.of_cons⟩
  exact hcurrent r (List.mem_cons_of_mem _ hr)

theorem pairwise_joinAfter (h : (current :: rest).Pairwise StartsBefore) :
    (joinAfter current rest).Pairwise Apart := by
  induction rest generalizing current with
  | nil => simp [joinAfter]
  | cons next rest ih =>
    rw [joinAfter]
    by_cases hm : current.Meets next
    · rw [dif_pos hm]
      exact ih (pairwise_through hm h)
    · rw [dif_neg hm]
      obtain ⟨hcurrent, hrest⟩ := List.pairwise_cons.mp h
      have hnext : Apart current next :=
        apart_of_not_meets (hcurrent next (List.mem_cons_self ..)) hm
      refine List.pairwise_cons.mpr ⟨fun r hr => ?_, ih hrest⟩
      -- A range joined later starts like one of the later ranges, hence not before `next`.
      obtain ⟨s, hs, hfam, hfirst⟩ := exists_start_of_mem_joinAfter hr
      have hapart : Apart current s := by
        rcases List.mem_cons.mp hs with rfl | hs
        · exact hnext
        · exact hnext.of_startsBefore (List.rel_of_pairwise_cons hrest hs)
      unfold Apart at hapart ⊢
      rwa [hfam, hfirst]

/-- Joining keeps what the ranges cover. -/
theorem covered_joinAfter (h : (current :: rest).Pairwise StartsBefore) (family : Family)
    (v : Nat) : Covered (joinAfter current rest) family v ↔ Covered (current :: rest) family v := by
  induction rest generalizing current with
  | nil => rfl
  | cons next rest ih =>
    rw [joinAfter]
    by_cases hm : current.Meets next
    · have hle : current.first ≤ next.first := by
        rcases List.rel_of_pairwise_cons h (List.mem_cons_self ..) with hlt | ⟨-, hle⟩
        · exact absurd hlt (by rw [hm.1]; exact Nat.lt_irrefl _)
        · exact hle
      have hfam : (current.through next hm.1).family = current.family := rfl
      rw [dif_pos hm, ih (pairwise_through hm h), covered_cons, covered_cons, covered_cons,
        mem_through hm hle, hfam, hm.1, ← or_assoc, and_or_left]
    · rw [dif_neg hm, covered_cons, ih h.of_cons, covered_cons (r := current)]

theorem pairwise_sort (rs : List Range) : (sort rs).Pairwise StartsBefore :=
  (sort_sorted rs).imp startsBefore_of_le

theorem pairwise_join_sort (rs : List Range) : (join (sort rs)).Pairwise Apart := by
  have h := pairwise_sort rs
  cases hs : sort rs with
  | nil => exact List.Pairwise.nil
  | cons r rest => exact pairwise_joinAfter (hs ▸ h)

theorem covered_join_sort (rs : List Range) (family : Family) (v : Nat) :
    Covered (join (sort rs)) family v ↔ Covered rs family v := by
  have h := pairwise_sort rs
  rw [← covered_congr_mem fun r => (sort_perm rs).mem_iff]
  cases hs : sort rs with
  | nil => rfl
  | cons r rest => exact covered_joinAfter (hs ▸ h) family v

end Range

namespace Cover

theorem mem_extentsOf {family : Family} {rs : List Range} {e : Extent} :
    e ∈ extentsOf family rs ↔ ∃ r ∈ rs, r.family = family ∧ r.toExtent = e := by
  simp [extentsOf, and_assoc]

theorem exists_mem_extentsOf {family : Family} {rs : List Range} {v : Nat} :
    (∃ e ∈ extentsOf family rs, v ∈ e) ↔ Covered rs family v := by
  constructor
  · rintro ⟨e, he, hv⟩
    obtain ⟨r, hr, hfam, rfl⟩ := mem_extentsOf.mp he
    exact ⟨r, hr, hfam, hv⟩
  · rintro ⟨r, hr, hfam, hv⟩
    exact ⟨r.toExtent, mem_extentsOf.mpr ⟨r, hr, hfam, rfl⟩, hv⟩

theorem gapped_extentsOf {family : Family} {rs : List Range} (h : rs.Pairwise Range.Apart) :
    Extent.Gapped (extentsOf family rs) where
  first_le_last e he := by
    obtain ⟨r, -, -, rfl⟩ := mem_extentsOf.mp he
    exact r.first_le_last
  gap := by
    rw [extentsOf, List.pairwise_map, List.pairwise_filter]
    refine h.imp fun {r s} hrs hr hs => ?_
    rw [decide_eq_true_eq] at hr hs
    rcases hrs with hlt | ⟨-, hgap⟩
    · exact absurd hlt (by rw [hr, hs]; exact Nat.lt_irrefl _)
    · exact hgap

variable (family : Family) (rs : List Range)

theorem extents_ofRanges :
    (ofRanges family rs).extents = extentsOf family (Range.join (Range.sort rs)) := by
  rw [ofRanges_eq, extents_ofExtents]

theorem ofRanges_eq_ofExtents :
    ofRanges family rs = ofExtents family (ofRanges family rs).extents := by
  rw [extents_ofRanges, ofRanges_eq]

theorem gapped_ofRanges : Extent.Gapped (ofRanges family rs).extents := by
  rw [extents_ofRanges]
  exact gapped_extentsOf (Range.pairwise_join_sort rs)

/-- The extents of a cover hold what the ranges cover. -/
theorem exists_mem_extents_iff {v : Nat} :
    (∃ e ∈ (ofRanges family rs).extents, v ∈ e) ↔ Covered rs family v := by
  rw [extents_ofRanges, exists_mem_extentsOf, Range.covered_join_sort]

theorem last_lt_of_mem {e : Extent} (he : e ∈ (ofRanges family rs).extents) :
    e.last < family.size := by
  have hle := (gapped_ofRanges family rs).first_le_last e he
  have h := (exists_mem_extents_iff family rs).mp ⟨e, he, hle, Nat.le_refl _⟩
  exact h.lt_size

/-- The binary search of a cover holds what the ranges cover. -/
theorem holds_iff_covered {v : Nat} :
    (ofRanges family rs).holds v = true ↔ Covered rs family v := by
  rw [ofRanges_eq_ofExtents, holds_ofExtents (gapped_ofRanges family rs),
    exists_mem_extents_iff]

/-! ## The invariant of a cover -/

/-- Starts and ends come in pairs, fit the family, and leave a value free between neighbours. -/
structure Sound (c : Cover) : Prop where
  size_eq : c.starts.size = c.ends.size
  start_le_end : ∀ i (hs : i < c.starts.size) (he : i < c.ends.size), c.starts[i] ≤ c.ends[i]
  end_le_top : ∀ i (he : i < c.ends.size), c.ends[i] ≤ c.family.top
  end_lt_start : ∀ i (he : i < c.ends.size) (hs : i + 1 < c.starts.size),
    c.ends[i] + 1 < c.starts[i + 1]

theorem sound_ofExtents {es : List Extent} (hes : Extent.Gapped es)
    (hlast : ∀ e ∈ es, e.last < family.size) : (ofExtents family es).Sound where
  size_eq := by simp
  start_le_end i hs he := by
    simp only [starts_ofExtents, ends_ofExtents, List.getElem_toArray, List.getElem_map]
    exact hes.first_le_last _ (List.getElem_mem _)
  end_le_top i he := by
    simp only [family_ofExtents, ends_ofExtents, List.getElem_toArray, List.getElem_map]
    exact Family.lt_size_iff.mp (hlast _ (List.getElem_mem _))
  end_lt_start i he hs := by
    simp only [starts_ofExtents, ends_ofExtents, List.getElem_toArray, List.getElem_map]
    exact List.pairwise_iff_getElem.mp hes.gap i (i + 1) _ _ (Nat.lt_succ_self i)

/-- **Covers are sound and lose nothing.** The cover of each family keeps its invariant, and its
binary search finds a value exactly when one of the ranges of the family holds it. -/
theorem both_sound_and_holds_iff (rs : List Range) (family : Family) :
    ((both rs).get family).family = family ∧ ((both rs).get family).Sound ∧
      ∀ v, ((both rs).get family).holds v = true ↔
        ∃ r ∈ rs, r.family = family ∧ r.first ≤ v ∧ v ≤ r.last := by
  refine ⟨?_, ?_, fun v => holds_iff_covered family rs⟩
  · show (ofRanges family rs).family = family
    rw [ofRanges_eq, family_ofExtents]
  · show (ofRanges family rs).Sound
    rw [ofRanges_eq_ofExtents]
    exact sound_ofExtents family (gapped_ofRanges family rs) fun e => last_lt_of_mem family rs

end Cover

end NetRanges
