import NetRanges.Cover.Basic

/-!
# Extents with gaps

Extents that each hold something and leave at least one value free between neighbours are
the normal form of what they hold: two such lists that hold the same values are equal
(`Gapped.eq_of_mem_iff`). The gaps are also what makes the binary search of a cover right
(`holds_ofExtents`): of the extents that start at or below a value, all but the last one end
below it.
-/

namespace NetRanges

namespace Extent

/-- Extents in ascending order, each with a value in it and a free value before the next. -/
structure Gapped (es : List Extent) : Prop where
  first_le_last : ∀ e ∈ es, e.first ≤ e.last
  gap : es.Pairwise fun d e => d.last + 1 < e.first

namespace Gapped

variable {d e f : Extent} {es fs : List Extent} {v : Nat}

theorem tail (h : Gapped (e :: es)) : Gapped es :=
  ⟨fun d hd => h.first_le_last d (List.mem_cons_of_mem _ hd), h.gap.of_cons⟩

theorem head_le (h : Gapped (e :: es)) : e.first ≤ e.last :=
  h.first_le_last e (List.mem_cons_self ..)

/-- What the later extents hold is beyond the first one and the gap after it. -/
theorem lt_of_mem_tail (h : Gapped (e :: es)) (hd : d ∈ es) (hv : v ∈ d) : e.last + 1 < v :=
  Nat.lt_of_lt_of_le (List.rel_of_pairwise_cons h.gap hd) hv.1

theorem first_le_of_mem (h : Gapped (e :: es)) (hv : ∃ d ∈ e :: es, v ∈ d) : e.first ≤ v := by
  obtain ⟨d, hd, hvd⟩ := hv
  have hle := h.head_le
  rcases List.mem_cons.mp hd with rfl | hd
  · exact hvd.1
  · have := h.lt_of_mem_tail hd hvd
    omega

theorem succ_last_not_mem (h : Gapped (e :: es)) : ¬ ∃ d ∈ e :: es, e.last + 1 ∈ d := by
  rintro ⟨d, hd, hvd⟩
  rcases List.mem_cons.mp hd with rfl | hd
  · have := hvd.2
    omega
  · have := h.lt_of_mem_tail hd hvd
    omega

theorem mem_tail_iff (h : Gapped (e :: es)) :
    (∃ d ∈ es, v ∈ d) ↔ (∃ d ∈ e :: es, v ∈ d) ∧ e.last < v := by
  constructor
  · rintro ⟨d, hd, hvd⟩
    have := h.lt_of_mem_tail hd hvd
    exact ⟨⟨d, List.mem_cons_of_mem _ hd, hvd⟩, by omega⟩
  · rintro ⟨⟨d, hd, hvd⟩, hlt⟩
    rcases List.mem_cons.mp hd with rfl | hd
    · have := hvd.2
      omega
    · exact ⟨d, hd, hvd⟩

/-- The first extents of two lists that hold the same values start and end together. -/
theorem head_eq (he : Gapped (e :: es)) (hf : Gapped (f :: fs))
    (h : ∀ v, (∃ d ∈ e :: es, v ∈ d) ↔ ∃ d ∈ f :: fs, v ∈ d) : e = f := by
  have hele := he.head_le
  have hfle := hf.head_le
  have hfe : f.first ≤ e.first :=
    hf.first_le_of_mem ((h _).mp ⟨e, List.mem_cons_self .., Nat.le_refl _, hele⟩)
  have hef : e.first ≤ f.first :=
    he.first_le_of_mem ((h _).mpr ⟨f, List.mem_cons_self .., Nat.le_refl _, hfle⟩)
  -- The value after the shorter extent is free in one list and held in the other.
  have hlast : e.last = f.last := by
    rcases Nat.lt_trichotomy e.last f.last with hlt | heq | hgt
    · refine absurd ((h _).mpr ⟨f, List.mem_cons_self .., ?_⟩) he.succ_last_not_mem
      exact ⟨by omega, hlt⟩
    · exact heq
    · refine absurd ((h _).mp ⟨e, List.mem_cons_self .., ?_⟩) hf.succ_last_not_mem
      exact ⟨by omega, hgt⟩
  obtain ⟨efirst, elast⟩ := e
  obtain ⟨ffirst, flast⟩ := f
  simp only at hfe hef hlast
  rw [hlast, Nat.le_antisymm hef hfe]

/-- **Normal form.** Extents with gaps are determined by what they hold. -/
theorem eq_of_mem_iff (he : Gapped es) (hf : Gapped fs)
    (h : ∀ v, (∃ d ∈ es, v ∈ d) ↔ ∃ d ∈ fs, v ∈ d) : es = fs := by
  induction es generalizing fs with
  | nil =>
    cases fs with
    | nil => rfl
    | cons f fs =>
      obtain ⟨d, hd, -⟩ := (h f.first).mpr ⟨f, List.mem_cons_self .., Nat.le_refl _, hf.head_le⟩
      cases hd
  | cons e es ih =>
    cases fs with
    | nil =>
      obtain ⟨d, hd, -⟩ := (h e.first).mp ⟨e, List.mem_cons_self .., Nat.le_refl _, he.head_le⟩
      cases hd
    | cons f fs =>
      obtain rfl := he.head_eq hf h
      rw [ih he.tail hf.tail]
      intro v
      rw [he.mem_tail_iff, hf.mem_tail_iff, h]

end Gapped

end Extent

/-! ## Binary search -/

namespace Cover

theorem lt_placeAbove_iff {starts : Array Nat} {v lo hi : Nat} (h : hi ≤ starts.size)
    (hsorted : ∀ i j (hij : i ≤ j) (hj : j < starts.size), starts[i] ≤ starts[j])
    (hbelow : ∀ i (hs : i < starts.size), i < lo → starts[i] ≤ v)
    (habove : ∀ i (hs : i < starts.size), hi ≤ i → v < starts[i]) :
    ∀ i (hs : i < starts.size), i < placeAbove starts v lo hi h ↔ starts[i] ≤ v := by
  fun_induction placeAbove starts v lo hi h with
  | case1 lo hi h hlt mid hle ih =>
    refine ih hsorted (fun i hs hi => ?_) habove
    exact Nat.le_trans (hsorted i mid (by omega) (by omega)) hle
  | case2 lo hi h hlt mid hgt ih =>
    refine ih hsorted hbelow fun i hs hi => ?_
    exact Nat.lt_of_lt_of_le (Nat.lt_of_not_le hgt) (hsorted mid i hi hs)
  | case3 lo hi h hnlt =>
    intro i hs
    constructor
    · exact hbelow i hs
    · intro hle
      by_cases hi' : i < lo
      · exact hi'
      · exact absurd hle (Nat.not_le_of_lt (habove i hs (by omega)))

theorem placeAbove_le {starts : Array Nat} {v lo hi : Nat} (h : hi ≤ starts.size)
    (hle : lo ≤ hi) : placeAbove starts v lo hi h ≤ hi := by
  fun_induction placeAbove starts v lo hi h with
  | case1 lo hi h hlt mid _ ih => exact ih (by omega)
  | case2 lo hi h hlt mid _ ih => exact Nat.le_trans (ih (by omega)) (by omega)
  | case3 lo hi h hnlt => exact hle

theorem first_le_getElem {es : List Extent} (hes : Extent.Gapped es) {i j : Nat} (hij : i ≤ j)
    (hj : j < es.length) : es[i].first ≤ es[j].first := by
  rcases Nat.lt_or_eq_of_le hij with hlt | rfl
  · have hgap := List.pairwise_iff_getElem.mp hes.gap i j (by omega) hj hlt
    have hle := hes.first_le_last es[i] (List.getElem_mem _)
    omega
  · exact Nat.le_refl _

/-- An extent is before the place that the search finds when it starts at or below the value. -/
theorem lt_place_iff {es : List Extent} (hes : Extent.Gapped es) (v : Nat) {i : Nat}
    (hi : i < es.length) :
    i < placeAbove (es.map Extent.first).toArray v 0 (es.map Extent.first).toArray.size
      (Nat.le_refl _) ↔ es[i].first ≤ v := by
  have h := lt_placeAbove_iff (v := v) (Nat.le_refl (es.map Extent.first).toArray.size)
    (fun i j hij hj => by simpa using first_le_getElem hes hij (by simpa using hj))
    (fun i _ hi => absurd hi (Nat.not_lt_zero i))
    (fun i hs hi => absurd hs (Nat.not_lt_of_le hi)) i (by simpa using hi)
  simpa using h

theorem holds_ofExtents {es : List Extent} (hes : Extent.Gapped es) (family : Family) (v : Nat) :
    (ofExtents family es).holds v = true ↔ ∃ e ∈ es, v ∈ e := by
  have hplace {i : Nat} (hi : i < es.length) := lt_place_iff hes v hi
  have hle := placeAbove_le (v := v) (Nat.le_refl (es.map Extent.first).toArray.size)
    (Nat.zero_le _)
  unfold holds
  simp only [starts_ofExtents, ends_ofExtents]
  split
  · rename_i h
    rw [h] at hplace
    constructor
    · nofun
    · rintro ⟨e, he, hv⟩
      obtain ⟨i, hi, rfl⟩ := List.getElem_of_mem he
      exact absurd ((hplace hi).mpr hv.1) (Nat.not_lt_zero i)
  · rename_i place h
    rw [h] at hplace hle
    have hp : place + 1 ≤ es.length := by simpa using hle
    simp only [List.getElem?_toArray, List.getElem?_map, List.getElem?_eq_getElem hp,
      Option.map_some, Option.any_some, decide_eq_true_eq]
    constructor
    · intro hv
      exact ⟨es[place], List.getElem_mem hp, (hplace hp).mp (Nat.lt_succ_self _), hv⟩
    · rintro ⟨e, he, hv⟩
      obtain ⟨i, hi, rfl⟩ := List.getElem_of_mem he
      have hip : i ≤ place := Nat.le_of_lt_succ ((hplace hi).mpr hv.1)
      rcases Nat.lt_or_eq_of_le hip with hlt | rfl
      · -- An extent before the place ends below the start found there.
        have hgap := List.pairwise_iff_getElem.mp hes.gap i place hi hp hlt
        have hfirst := (hplace hp).mp (Nat.lt_succ_self _)
        have hlast := hv.2
        omega
      · exact hv.2

end Cover

end NetRanges
