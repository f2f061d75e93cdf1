import NetRanges.Matcher.Scan
import NetRanges.Proofs.Gaps

/-!
# Scans and sweeps

Both walk along extents in ascending order of their starts, which may overlap, nest and
repeat. A scan may stop at the first extent that starts above its value (`scan_iff`). Each
step of a sweep drops a value or an extent; what is dropped has no partner among what is left,
so a sweep answers whether any value lies in any extent (`run_iff`). Its answer `true` needs no
order at all (`found_of_run`). No sweep drops more than it was given (`Advances.size_add`).

What is in order has its repetitions side by side, so that all of them are erased. Of two lists in
order the same is left when they have the same elements (`eraseReps_eq_iff`).
-/

namespace NetRanges

/-! ## Erasing repetitions -/

section Repetitions

variable {α : Type} [BEq α] {a b c : α} {as : List α}

theorem eraseReps_loop (a : α) (as acc : List α) : List.eraseRepsBy.loop (· == ·) a as acc =
    acc.reverse ++ List.eraseRepsBy.loop (· == ·) a as [] := by
  induction as generalizing a acc with
  | nil => simp [List.eraseRepsBy.loop]
  | cons b as ih =>
    rw [List.eraseRepsBy.loop, List.eraseRepsBy.loop]
    split
    · exact ih a acc
    · rw [ih b (a :: acc), ih b [a]]
      simp

theorem eraseReps_cons_cons : (a :: b :: as).eraseReps =
    if a == b then (a :: as).eraseReps else a :: (b :: as).eraseReps := by
  show List.eraseRepsBy.loop (· == ·) a (b :: as) [] = _
  rw [List.eraseRepsBy.loop]
  cases h : a == b with
  | true => rfl
  | false => exact eraseReps_loop b as [a]

theorem eraseReps_sublist (as : List α) : as.eraseReps.Sublist as := by
  cases as with
  | nil => exact List.Sublist.refl _
  | cons a as =>
    induction as generalizing a with
    | nil => exact List.Sublist.refl _
    | cons b as ih =>
      rw [eraseReps_cons_cons]
      split
      · exact (ih a).trans ((List.sublist_cons_self b as).cons_cons a)
      · exact (ih b).cons_cons a

theorem mem_eraseReps [LawfulBEq α] : c ∈ as.eraseReps ↔ c ∈ as := by
  refine ⟨fun h => (eraseReps_sublist as).subset h, fun h => ?_⟩
  cases as with
  | nil => exact h
  | cons a as =>
    induction as generalizing a with
    | nil => exact h
    | cons b as ih =>
      rw [eraseReps_cons_cons]
      by_cases hab : a == b
      · obtain rfl := eq_of_beq hab
        rw [if_pos hab]
        apply ih a
        rcases List.mem_cons.mp h with rfl | h
        · exact List.mem_cons_self ..
        · exact h
      · rw [if_neg hab]
        rcases List.mem_cons.mp h with rfl | h
        · exact List.mem_cons_self ..
        · exact List.mem_cons_of_mem _ (ih b h)

variable [LawfulBEq α] {R : α → α → Prop} {bs : List α}

/-- No repetition is left in a list in order. -/
theorem pairwise_eraseReps (hanti : ∀ a b, R a b → R b a → a = b) (h : as.Pairwise R) :
    as.eraseReps.Pairwise fun a b => R a b ∧ a ≠ b := by
  cases as with
  | nil => exact List.Pairwise.nil
  | cons a as =>
    induction as generalizing a with
    | nil => exact List.pairwise_singleton _ _
    | cons b as ih =>
      obtain ⟨ha, hb⟩ := List.pairwise_cons.mp h
      rw [eraseReps_cons_cons]
      by_cases hab : a == b
      · rw [if_pos hab]
        exact ih a (h.sublist ((List.sublist_cons_self b as).cons_cons a))
      · rw [if_neg hab]
        refine List.pairwise_cons.mpr ⟨fun c hc => ?_, ih b hb⟩
        have hc' : c ∈ b :: as := mem_eraseReps.mp hc
        refine ⟨ha c hc', ?_⟩
        -- If `a` came again, `b` would stand between two equal elements.
        rintro rfl
        rcases List.mem_cons.mp hc' with rfl | hc'
        · exact hab BEq.rfl
        · exact hab (beq_iff_eq.mpr (hanti _ _ (ha b (List.mem_cons_self ..))
            ((List.pairwise_cons.mp hb).1 _ hc')))

theorem eraseReps_eq_iff (hanti : ∀ a b, R a b → R b a → a = b) (has : as.Pairwise R)
    (hbs : bs.Pairwise R) : as.eraseReps = bs.eraseReps ↔ ∀ c, c ∈ as ↔ c ∈ bs := by
  constructor
  · intro h c
    rw [← mem_eraseReps, h, mem_eraseReps]
  · intro h
    have ha := pairwise_eraseReps hanti has
    have hb := pairwise_eraseReps hanti hbs
    have hperm : as.eraseReps.Perm bs.eraseReps := by
      refine (List.perm_ext_iff_of_nodup (ha.imp And.right) (hb.imp And.right)).mpr fun c => ?_
      rw [mem_eraseReps, mem_eraseReps]
      exact h c
    exact hperm.eq_of_pairwise (fun a b _ _ h h' => hanti a b h.1 h'.1) ha hb

end Repetitions

/-! ## Extents in ascending order -/

/-- Extents in ascending order of their starts. -/
def Extent.Ascending (es : List Extent) : Prop :=
  es.Pairwise fun d e => d.first ≤ e.first

theorem Extent.Gapped.ascending {es : List Extent} (h : Extent.Gapped es) :
    Extent.Ascending es := by
  refine h.gap.imp_of_mem fun {d e} hd _ hgap => ?_
  have := h.first_le_last d hd
  omega

theorem Extent.ascending_sort (es : List Extent) : Extent.Ascending (Extent.sort es) := by
  refine (Extent.sort_sorted es).imp fun {d e} hle => ?_
  rcases Extent.le_iff.mp hle with hlt | ⟨heq, -⟩
  · exact Nat.le_of_lt hlt
  · exact Nat.le_of_eq heq

/-! ## Scanning -/

namespace ScanList

theorem scan_iff {es : List Extent} (h : Extent.Ascending es) (v : Nat) :
    scan v es = true ↔ ∃ e ∈ es, v ∈ e := by
  induction es with
  | nil => simp [scan]
  | cons e es ih =>
    rw [scan]
    by_cases hlt : v < e.first
    · rw [if_pos hlt]
      apply iff_of_false Bool.false_ne_true
      rintro ⟨d, hd, hv⟩
      have hfirst : e.first ≤ d.first := by
        rcases List.mem_cons.mp hd with rfl | hd
        · exact Nat.le_refl _
        · exact List.rel_of_pairwise_cons h hd
      have := hv.1
      omega
    · rw [if_neg hlt]
      by_cases hle : v ≤ e.last
      · rw [if_pos hle]
        exact iff_of_true rfl ⟨e, List.mem_cons_self .., Nat.le_of_not_lt hlt, hle⟩
      · rw [if_neg hle, ih h.of_cons]
        constructor
        · rintro ⟨d, hd, hv⟩
          exact ⟨d, List.mem_cons_of_mem _ hd, hv⟩
        · rintro ⟨d, hd, hv⟩
          rcases List.mem_cons.mp hd with rfl | hd
          · exact absurd hv.2 hle
          · exact ⟨d, hd, hv⟩

variable {rs : List Range} {family : Family}

theorem extents_ofRanges : (ofRanges rs).extents.get family =
    (Extent.sort (Cover.extentsOf family rs)).eraseReps :=
  ByFamily.get_ofFn _ _

theorem mem_extents {e : Extent} :
    e ∈ (ofRanges rs).extents.get family ↔ e ∈ Cover.extentsOf family rs := by
  rw [extents_ofRanges, mem_eraseReps, (Extent.sort_perm _).mem_iff]

theorem ascending_extents : Extent.Ascending ((ofRanges rs).extents.get family) := by
  rw [extents_ofRanges]
  exact (Extent.ascending_sort _).sublist (eraseReps_sublist _)

end ScanList

/-! ## Sweeping -/

namespace Sweep

variable {s t : Sweep}

/-- One of the values lies in one of the extents. -/
def Found (s : Sweep) : Prop :=
  ∃ v ∈ s.values, ∃ e ∈ s.extents, v ∈ e

/-- Both lists are in ascending order. -/
structure Ascending (s : Sweep) : Prop where
  values : s.values.Pairwise (· ≤ ·)
  extents : Extent.Ascending s.extents

/-- A step drops the first value below the first extent, or the first extent below the first
value. -/
theorem step_eq_more (h : s.step = .more t) :
    (∃ v vs e es, s = ⟨v :: vs, e :: es⟩ ∧ v < e.first ∧ t = ⟨vs, e :: es⟩) ∨
      ∃ v vs e es, s = ⟨v :: vs, e :: es⟩ ∧ e.last < v ∧ t = ⟨v :: vs, es⟩ := by
  unfold step at h
  split at h
  · rename_i v vs e es
    split at h
    · rename_i hlt
      cases h
      exact Or.inl ⟨v, vs, e, es, rfl, hlt, rfl⟩
    · split at h
      · rename_i hlt
        cases h
        exact Or.inr ⟨v, vs, e, es, rfl, hlt, rfl⟩
      · cases h
  · cases h

theorem step_eq_done {found : Bool} (h : s.step = .done found) : found = true ↔ s.Found := by
  unfold step at h
  split at h
  · rename_i v vs e es
    split at h
    · cases h
    · rename_i hge
      split at h
      · cases h
      · rename_i hle
        cases h
        refine iff_of_true rfl ⟨v, List.mem_cons_self .., e, List.mem_cons_self .., ?_⟩
        exact ⟨Nat.le_of_not_lt hge, Nat.le_of_not_lt hle⟩
  · rename_i hnil
    cases h
    refine iff_of_false Bool.false_ne_true ?_
    rintro ⟨v, hv, e, he, -⟩
    obtain ⟨vs, es⟩ := s
    cases vs with
    | nil => cases hv
    | cons w vs =>
      cases es with
      | nil => cases he
      | cons d es => exact hnil w vs d es rfl

theorem found_of_step (h : s.step = .more t) (ht : t.Found) : s.Found := by
  obtain ⟨w, hw, d, hd, hwd⟩ := ht
  rcases step_eq_more h with ⟨v, vs, e, es, rfl, -, rfl⟩ | ⟨v, vs, e, es, rfl, -, rfl⟩
  · exact ⟨w, List.mem_cons_of_mem _ hw, d, hd, hwd⟩
  · exact ⟨w, hw, d, List.mem_cons_of_mem _ hd, hwd⟩

namespace Ascending

theorem step (h : s.Ascending) (hst : s.step = .more t) : t.Ascending := by
  rcases step_eq_more hst with ⟨v, vs, e, es, rfl, -, rfl⟩ | ⟨v, vs, e, es, rfl, -, rfl⟩
  · exact ⟨h.values.of_cons, h.extents⟩
  · exact ⟨h.values, h.extents.of_cons⟩

/-- What a step drops has no partner: all extents start above the value, or all values are
above the extent. -/
theorem found_step (h : s.Ascending) (hst : s.step = .more t) (hs : s.Found) : t.Found := by
  obtain ⟨w, hw, d, hd, hwd⟩ := hs
  rcases step_eq_more hst with ⟨v, vs, e, es, rfl, hlt, rfl⟩ | ⟨v, vs, e, es, rfl, hlt, rfl⟩
  · refine ⟨w, ?_, d, hd, hwd⟩
    rcases List.mem_cons.mp hw with rfl | hw
    · have hfirst : e.first ≤ d.first := by
        rcases List.mem_cons.mp hd with rfl | hd
        · exact Nat.le_refl _
        · exact List.rel_of_pairwise_cons h.extents hd
      have := hwd.1
      omega
    · exact hw
  · refine ⟨w, hw, d, ?_, hwd⟩
    rcases List.mem_cons.mp hd with rfl | hd
    · have hle : v ≤ w := by
        rcases List.mem_cons.mp hw with rfl | hw
        · exact Nat.le_refl _
        · exact List.rel_of_pairwise_cons h.values hw
      have := hwd.2
      omega
    · exact hd

end Ascending

/-- A sweep that finds something is right, in whatever order the lists are. -/
theorem found_of_run (h : s.run = true) : s.Found := by
  fun_induction run s with
  | case1 s t hst _ ih => exact found_of_step hst (ih h)
  | case2 s found hst => exact (step_eq_done hst).mp h

theorem Ascending.run_iff (h : s.Ascending) : s.run = true ↔ s.Found := by
  refine ⟨found_of_run, fun hs => ?_⟩
  fun_induction run s with
  | case1 s t hst _ ih => exact ih (h.step hst) (h.found_step hst hs)
  | case2 s found hst => exact (step_eq_done hst).mpr hs

/-! ## How long a sweep takes -/

/-- So many advances, each of which drops a value or an extent, lead from one sweep to another. -/
inductive Advances : Nat → Sweep → Sweep → Prop
  | refl (s : Sweep) : Advances 0 s s
  | step {n : Nat} {s t u : Sweep} (h : s.step = .more t) (htu : Advances n t u) :
      Advances (n + 1) s u

/-- Every advance takes one off what is left. -/
theorem Advances.size_add {n : Nat} (h : Advances n s t) : t.size + n = s.size := by
  induction h with
  | refl s => rfl
  | step hst _ ih =>
    have := size_of_step hst
    omega

theorem run_of_step (h : s.step = .more t) : s.run = t.run := by
  rw [run]
  split
  · rename_i u hu
    rw [h] at hu
    cases hu
    rfl
  · rename_i found hdone
    rw [h] at hdone
    cases hdone

theorem run_of_done {found : Bool} (h : s.step = .done found) : s.run = found := by
  rw [run]
  split
  · rename_i t ht
    rw [h] at ht
    cases ht
  · rename_i answer hanswer
    rw [h] at hanswer
    cases hanswer
    rfl

/-- The sweep makes the advances that `drops` counts and answers where they lead. -/
theorem exists_advances_drops (s : Sweep) :
    ∃ t, Advances s.drops s t ∧ t.step = .done s.run := by
  fun_induction drops s with
  | case1 s t hst _ ih =>
    obtain ⟨u, htu, hu⟩ := ih
    exact ⟨u, .step hst htu, by rw [run_of_step hst, hu]⟩
  | case2 s found hst => exact ⟨s, .refl s, by rw [run_of_done hst, hst]⟩

/-- **Sweeps.** A sweep that finds something is right in whatever order the lists are. With the
values and the starts of the extents in ascending order it finds whatever there is to find; the
extents may overlap, nest, repeat or hold nothing. It answers after at most as many advances as
there are values and extents. -/
theorem run_sound_and_complete (vs : List Nat) (es : List Extent) :
    (run ⟨vs, es⟩ = true → ∃ v ∈ vs, ∃ e ∈ es, e.first ≤ v ∧ v ≤ e.last) ∧
      (vs.Pairwise (· ≤ ·) → es.Pairwise (fun d e => d.first ≤ e.first) →
        (∃ v ∈ vs, ∃ e ∈ es, e.first ≤ v ∧ v ≤ e.last) → run ⟨vs, es⟩ = true) ∧
      (∃ t, Advances (drops ⟨vs, es⟩) ⟨vs, es⟩ t ∧ t.step = .done (run ⟨vs, es⟩)) ∧
      drops ⟨vs, es⟩ ≤ vs.length + es.length := by
  obtain ⟨t, hadv, hdone⟩ := exists_advances_drops ⟨vs, es⟩
  refine ⟨found_of_run, fun hvs hes hfound => ?_, ⟨t, hadv, hdone⟩, ?_⟩
  · have hasc : Ascending ⟨vs, es⟩ := ⟨hvs, hes⟩
    exact hasc.run_iff.mpr hfound
  · have hsize : t.size + drops ⟨vs, es⟩ = vs.length + es.length := hadv.size_add
    omega

/-! ## Batches of addresses -/

variable {family : Family} {as : List Address} {es : List Extent} {foreign : Bool}

theorem mem_valuesOf {v : Nat} :
    v ∈ valuesOf family as ↔ ∃ a ∈ as, a.family = family ∧ a.value = v := by
  simp [valuesOf, and_assoc]

theorem pairwise_valuesOf (family : Family) (as : List Address) :
    (valuesOf family as).Pairwise (· ≤ ·) := by
  have htrans (u v w : Nat) : decide (u ≤ v) = true → decide (v ≤ w) = true →
      decide (u ≤ w) = true := by
    simp only [decide_eq_true_eq]
    exact Nat.le_trans
  have htotal (u v : Nat) : (decide (u ≤ v) || decide (v ≤ u)) = true := by
    simp only [Bool.or_eq_true, decide_eq_true_eq]
    exact Nat.le_total u v
  exact (List.pairwise_mergeSort htrans htotal _).imp of_decide_eq_true

/-- The answer for one family: some address of the family lies in an extent, or would be
answered by `foreign` for want of extents. -/
theorem anyOf_iff (hes : Extent.Ascending es) : anyOf family as es foreign = true ↔
    ∃ a ∈ as, a.family = family ∧
      if es.isEmpty then foreign = true else ∃ e ∈ es, a.value ∈ e := by
  unfold anyOf
  simp only
  by_cases hvalues : (valuesOf family as).isEmpty
  · rw [if_pos hvalues]
    apply iff_of_false Bool.false_ne_true
    rintro ⟨a, ha, hfam, -⟩
    have hmem : a.value ∈ valuesOf family as := mem_valuesOf.mpr ⟨a, ha, hfam, rfl⟩
    rw [List.isEmpty_iff.mp hvalues] at hmem
    cases hmem
  · rw [if_neg hvalues]
    by_cases hempty : es.isEmpty
    · simp only [if_pos hempty]
      obtain ⟨v, hv⟩ := List.exists_mem_of_ne_nil _ (mt List.isEmpty_iff.mpr hvalues)
      obtain ⟨a, ha, hfam, -⟩ := mem_valuesOf.mp hv
      exact ⟨fun h => ⟨a, ha, hfam, h⟩, fun ⟨_, _, _, h⟩ => h⟩
    · have hasc : Ascending ⟨valuesOf family as, es⟩ := ⟨pairwise_valuesOf family as, hes⟩
      simp only [if_neg hempty, hasc.run_iff]
      constructor
      · rintro ⟨v, hv, he⟩
        obtain ⟨a, ha, hfam, rfl⟩ := mem_valuesOf.mp hv
        exact ⟨a, ha, hfam, he⟩
      · rintro ⟨a, ha, hfam, he⟩
        exact ⟨a.value, mem_valuesOf.mpr ⟨a, ha, hfam, rfl⟩, he⟩

/-- The sweeps of both families answer whether any address would be answered with `true`. -/
theorem any_anyOf {extents : Family → List Extent} {found : Address → Bool} (as : List Address)
    (foreign : Bool) (hes : ∀ f, Extent.Ascending (extents f))
    (hfound : ∀ a, found a = true ↔ ∃ e ∈ extents a.family, a.value ∈ e) :
    ([Family.v4, Family.v6].any fun f => anyOf f as (extents f) foreign) =
      as.any fun a => if (extents a.family).isEmpty then foreign else found a := by
  have hfamily (a : Address) : a.family ∈ [Family.v4, Family.v6] := by
    cases a.family <;> simp
  have hanswer (a : Address) : (if (extents a.family).isEmpty then foreign else found a) = true ↔
      if (extents a.family).isEmpty then foreign = true
      else ∃ e ∈ extents a.family, a.value ∈ e := by
    split
    · rfl
    · exact hfound a
  rw [Bool.eq_iff_iff, List.any_eq_true, List.any_eq_true]
  simp only [anyOf_iff (hes _), hanswer]
  constructor
  · rintro ⟨f, -, a, ha, rfl, h⟩
    exact ⟨a, ha, h⟩
  · rintro ⟨a, ha, h⟩
    exact ⟨a.family, hfamily a, a, ha, rfl, h⟩

end Sweep

end NetRanges
