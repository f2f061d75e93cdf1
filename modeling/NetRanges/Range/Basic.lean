import NetRanges.Error
import NetRanges.Extent

/-!
# Ranges

A range is an extent within one family: its ends are in order and fit the width of the
family, so every range holds at least one address. Two addresses span a range in either
order, unless they belong to different families. Ranges are ordered by family, then by
first value, then by last value.
-/

namespace NetRanges

/-- The addresses of one family between two values, both included. -/
structure Range extends Extent where
  family : Family
  first_le_last : first ≤ last
  last_lt : last < family.size
deriving DecidableEq

/-- A count of addresses never exceeds this number. -/
def countLimit : Nat := Nat.pow 2 128 - 1

namespace Range

theorem first_lt (r : Range) : r.first < r.family.size :=
  Nat.lt_of_le_of_lt r.first_le_last r.last_lt

def lower (r : Range) : Address :=
  ⟨r.family, r.first, r.first_lt⟩

def upper (r : Range) : Address :=
  ⟨r.family, r.last, r.last_lt⟩

/-- The range between two values in either order, cut off at the top of the family. -/
def spanning (family : Family) (a b : Nat) : Range where
  family := family
  first := min (min a b) family.top
  last := min (max a b) family.top
  first_le_last := by omega
  last_lt := Family.lt_size_iff.mpr (Nat.min_le_right ..)

/-- The range between two addresses in either order. -/
def between (a b : Address) : Except Error Range :=
  if a.family = b.family then .ok (spanning a.family a.value b.value)
  else .error (.familyMismatch a b)

def single (a : Address) : Range :=
  spanning a.family a.value a.value

def isSingle (r : Range) : Bool :=
  r.first == r.last

/-- How many addresses a range holds, up to the limit of counts. -/
def count (r : Range) : Nat :=
  min (r.last - r.first + 1) countLimit

/-- Whether a range holds an address, where `foreign` answers for the other family. -/
def contains (r : Range) (a : Address) (foreign : Bool) : Bool :=
  if a.family = r.family then decide (a.value ∈ r.toExtent) else foreign

/-- The two ends with an arrow between them, or the only address. -/
def text (r : Range) : Text :=
  if r.isSingle then r.lower.text else r.lower.text ++ " -> ".toList ++ r.upper.text

instance : ToString Range :=
  ⟨fun r => String.ofList r.text⟩

def listText (rs : List Range) : Text :=
  Text.bracketed (rs.map text)

/-! ## The range between two values -/

theorem eq_of_ends_eq {r s : Range} (hfam : r.family = s.family) (hfirst : r.first = s.first)
    (hlast : r.last = s.last) : r = s := by
  obtain ⟨⟨_, _⟩, _, _, _⟩ := r
  obtain ⟨⟨_, _⟩, _, _, _⟩ := s
  simp_all

theorem toExtent_spanning {family : Family} {a b : Nat} (hab : a ≤ b) (hb : b < family.size) :
    (spanning family a b).toExtent = ⟨a, b⟩ := by
  have hb' := Family.lt_size_iff.mp hb
  simp only [spanning, Extent.mk.injEq]
  omega

@[simp] theorem spanning_ends (r : Range) : spanning r.family r.first r.last = r := by
  have h := toExtent_spanning r.first_le_last r.last_lt
  exact eq_of_ends_eq rfl (congrArg Extent.first h) (congrArg Extent.last h)

theorem between_lower_upper (r : Range) : between r.lower r.upper = .ok r := by
  simp [between, lower, upper]

theorem toExtent_single (a : Address) : (single a).toExtent = ⟨a.value, a.value⟩ :=
  toExtent_spanning (Nat.le_refl _) a.value_lt

/-! ## The order of ranges -/

instance : LE Range :=
  ⟨fun r s => r.family.version < s.family.version ∨
    r.family.version = s.family.version ∧ r.toExtent ≤ s.toExtent⟩

theorem le_iff {r s : Range} :
    r ≤ s ↔ r.family.version < s.family.version ∨
      r.family.version = s.family.version ∧ r.toExtent ≤ s.toExtent :=
  Iff.rfl

instance (r s : Range) : Decidable (r ≤ s) :=
  decidable_of_iff _ le_iff.symm

theorem le_total (r s : Range) : r ≤ s ∨ s ≤ r := by
  simp only [le_iff, Extent.le_iff]
  omega

theorem le_trans {r s t : Range} (hrs : r ≤ s) (hst : s ≤ t) : r ≤ t := by
  simp only [le_iff, Extent.le_iff] at *
  omega

theorem le_antisymm {r s : Range} (hrs : r ≤ s) (hsr : s ≤ r) : r = s := by
  simp only [le_iff] at hrs hsr
  have hfam : r.family = s.family := by
    cases hr : r.family <;> cases hs : s.family <;>
      simp [hr, hs, Family.version] at hrs hsr ⊢
  rw [hfam] at hrs hsr
  have hext := Extent.le_antisymm (by simpa using hrs) (by simpa using hsr)
  exact eq_of_ends_eq hfam (congrArg Extent.first hext) (congrArg Extent.last hext)

instance : Ord Range :=
  ⟨fun r s => if r ≤ s then if s ≤ r then .eq else .lt else .gt⟩

def sort (rs : List Range) : List Range :=
  rs.mergeSort fun r s => r ≤ s

theorem sort_perm (rs : List Range) : (sort rs).Perm rs :=
  List.mergeSort_perm ..

theorem sort_sorted (rs : List Range) : (sort rs).Pairwise (· ≤ ·) := by
  refine (List.pairwise_mergeSort ?_ ?_ rs).imp fun h => of_decide_eq_true h
  · intro a b c hab hbc
    exact decide_eq_true (le_trans (of_decide_eq_true hab) (of_decide_eq_true hbc))
  · intro a b
    simpa using le_total a b

/-- Sorting forgets in which order the ranges were given. -/
theorem sort_congr {rs rs' : List Range} (h : rs.Perm rs') : sort rs = sort rs' := by
  have hperm : (sort rs).Perm (sort rs') := (sort_perm rs).trans (h.trans (sort_perm rs').symm)
  exact hperm.eq_of_pairwise (fun _ _ _ _ => le_antisymm) (sort_sorted rs) (sort_sorted rs')

end Range

end NetRanges
