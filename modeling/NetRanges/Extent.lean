/-!
# Extents

An extent is a pair of numbers read as the interval between them, both ends included. It
belongs to no family, and nothing keeps its ends in order: an extent whose first number is
the larger one holds nothing. Extents are ordered by their first numbers, then by their
last ones.
-/

namespace NetRanges

/-- The numbers from `first` to `last`. -/
structure Extent where
  first : Nat
  last : Nat
deriving DecidableEq, Repr, Inhabited

namespace Extent

/-- A number lies in an extent when it lies between the two ends. -/
instance : Membership Nat Extent :=
  ⟨fun e v => e.first ≤ v ∧ v ≤ e.last⟩

theorem mem_iff {v : Nat} {e : Extent} : v ∈ e ↔ e.first ≤ v ∧ v ≤ e.last :=
  Iff.rfl

instance (v : Nat) (e : Extent) : Decidable (v ∈ e) :=
  decidable_of_iff _ mem_iff.symm

instance : LE Extent :=
  ⟨fun a b => a.first < b.first ∨ a.first = b.first ∧ a.last ≤ b.last⟩

theorem le_iff {a b : Extent} :
    a ≤ b ↔ a.first < b.first ∨ a.first = b.first ∧ a.last ≤ b.last :=
  Iff.rfl

instance (a b : Extent) : Decidable (a ≤ b) :=
  decidable_of_iff _ le_iff.symm

theorem le_total (a b : Extent) : a ≤ b ∨ b ≤ a := by
  simp only [le_iff]
  omega

theorem le_trans {a b c : Extent} (hab : a ≤ b) (hbc : b ≤ c) : a ≤ c := by
  simp only [le_iff] at *
  omega

theorem le_antisymm {a b : Extent} (hab : a ≤ b) (hba : b ≤ a) : a = b := by
  obtain ⟨af, al⟩ := a
  obtain ⟨bf, bl⟩ := b
  simp only [le_iff] at hab hba
  obtain ⟨rfl, rfl⟩ : af = bf ∧ al = bl := by omega
  rfl

def sort (es : List Extent) : List Extent :=
  es.mergeSort fun a b => a ≤ b

theorem sort_perm (es : List Extent) : (sort es).Perm es :=
  List.mergeSort_perm ..

theorem sort_sorted (es : List Extent) : (sort es).Pairwise (· ≤ ·) := by
  refine (List.pairwise_mergeSort ?_ ?_ es).imp fun h => of_decide_eq_true h
  · intro a b c hab hbc
    exact decide_eq_true (le_trans (of_decide_eq_true hab) (of_decide_eq_true hbc))
  · intro a b
    simpa using le_total a b

end Extent

end NetRanges
