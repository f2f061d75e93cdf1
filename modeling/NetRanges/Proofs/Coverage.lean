import NetRanges.Range.Basic

/-!
# Coverage

A list of ranges covers a value of a family when one of the ranges belongs to the family and
holds the value. Order, repetitions and the way in which the ranges overlap make no
difference to it. `heldBy` is the answer that coverage gives to a question for one address:
every range is asked, and none is sorted, joined or cut before.
-/

namespace NetRanges

/-- A range of the family holds the value. -/
def Covered (rs : List Range) (family : Family) (v : Nat) : Prop :=
  ∃ r ∈ rs, r.family = family ∧ v ∈ r.toExtent

instance (rs : List Range) (family : Family) (v : Nat) : Decidable (Covered rs family v) :=
  inferInstanceAs (Decidable (∃ r ∈ rs, _))

/-- Whether a range holds the address, where `foreign` answers if no range has its family. -/
def heldBy (rs : List Range) (a : Address) (foreign : Bool) : Bool :=
  if ∃ r ∈ rs, r.family = a.family then decide (Covered rs a.family a.value) else foreign

variable {rs ss : List Range} {family : Family} {v : Nat}

theorem covered_cons {r : Range} :
    Covered (r :: rs) family v ↔ r.family = family ∧ v ∈ r.toExtent ∨ Covered rs family v := by
  simp [Covered]

theorem covered_append :
    Covered (rs ++ ss) family v ↔ Covered rs family v ∨ Covered ss family v := by
  simp [Covered, or_and_right, exists_or]

theorem covered_congr_mem (h : ∀ r, r ∈ rs ↔ r ∈ ss) :
    Covered rs family v ↔ Covered ss family v := by
  simp only [Covered, h]

theorem Covered.lt_size (h : Covered rs family v) : v < family.size := by
  obtain ⟨r, -, rfl, -, hlast⟩ := h
  exact Nat.lt_of_le_of_lt hlast r.last_lt

theorem exists_covered_iff : (∃ v, Covered rs family v) ↔ ∃ r ∈ rs, r.family = family := by
  constructor
  · rintro ⟨v, r, hr, hfam, -⟩
    exact ⟨r, hr, hfam⟩
  · rintro ⟨r, hr, hfam⟩
    exact ⟨r.first, r, hr, hfam, Nat.le_refl _, r.first_le_last⟩

/-- The answer for an address depends on nothing but coverage. -/
theorem heldBy_congr {a : Address} (foreign : Bool)
    (h : ∀ v, Covered rs a.family v ↔ Covered ss a.family v) :
    heldBy rs a foreign = heldBy ss a foreign := by
  have hfam : (∃ r ∈ rs, r.family = a.family) ↔ ∃ r ∈ ss, r.family = a.family := by
    rw [← exists_covered_iff, ← exists_covered_iff]
    exact exists_congr h
  simp only [heldBy, hfam, h]

theorem heldBy_false_iff {a : Address} : heldBy rs a false = true ↔ Covered rs a.family a.value := by
  unfold heldBy
  by_cases h : ∃ r ∈ rs, r.family = a.family
  · rw [if_pos h, decide_eq_true_iff]
  · rw [if_neg h]
    exact ⟨nofun, fun ⟨r, hr, hfam, _⟩ => absurd ⟨r, hr, hfam⟩ h⟩

/-- The answer of a matcher that gives the flag when it finds nothing of the family. -/
theorem ite_eq_heldBy {a : Address} {absent : Prop} [Decidable absent] {foreign found : Bool}
    (habsent : absent ↔ ¬ ∃ v, Covered rs a.family v)
    (hfound : found = true ↔ Covered rs a.family a.value) :
    (if absent then foreign else found) = heldBy rs a foreign := by
  have hfam : absent ↔ ¬ ∃ r ∈ rs, r.family = a.family := by
    rw [habsent, exists_covered_iff]
  unfold heldBy
  by_cases h : ∃ r ∈ rs, r.family = a.family
  · rw [if_neg fun habs => hfam.mp habs h, if_pos h, Bool.eq_iff_iff, decide_eq_true_iff]
    exact hfound
  · rw [if_pos (hfam.mpr h), if_neg h]

/-- Pieces of which each has a value are none exactly when they hold nothing. -/
theorem eq_nil_iff_not_covered {α : Type} {pieces : List α} {Holds : α → Nat → Prop}
    (hne : ∀ p ∈ pieces, ∃ v, Holds p v)
    (h : ∀ v, (∃ p ∈ pieces, Holds p v) ↔ Covered rs family v) :
    pieces = [] ↔ ¬ ∃ v, Covered rs family v := by
  rw [List.eq_nil_iff_forall_not_mem, not_exists]
  constructor
  · intro hnil v hv
    obtain ⟨p, hp, -⟩ := (h v).mpr hv
    exact hnil p hp
  · intro hnone p hp
    obtain ⟨v, hv⟩ := hne p hp
    exact hnone v ((h v).mp ⟨p, hp, hv⟩)

end NetRanges
