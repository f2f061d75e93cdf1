import NetRanges.Family

/-!
# Addresses

An address is a family and a value below the size of that family. Addresses of one family
are ordered by value; addresses of different families are not ordered at all. Questions
that compare across families take an answer for that case from the caller.
-/

namespace NetRanges

/-- An address of one family, given by its numeric value. -/
structure Address where
  family : Family
  value : Nat
  value_lt : value < family.size
deriving DecidableEq

namespace Address

/-- The address whose bits are the lowest bits of `n`. -/
def ofNat (family : Family) (n : Nat) : Address :=
  ⟨family, n % family.size, Nat.mod_lt n family.size_pos⟩

instance : Inhabited Address :=
  ⟨ofNat .v4 0⟩

theorem value_ofNat {f : Family} {n : Nat} (h : n < f.size) : (ofNat f n).value = n :=
  Nat.mod_eq_of_lt h

@[simp] theorem ofNat_value (a : Address) : ofNat a.family a.value = a := by
  obtain ⟨f, v, hv⟩ := a
  simp [ofNat, Nat.mod_eq_of_lt hv]

theorem eq_of_value_eq {a b : Address} (hf : a.family = b.family) (hv : a.value = b.value) :
    a = b := by
  rw [← ofNat_value a, ← ofNat_value b, hf, hv]

/-- The order of two addresses of one family; none across families. -/
def compare? (a b : Address) : Option Ordering :=
  if a.family = b.family then some (compare a.value b.value) else none

/-- Whether two addresses are equal, where `foreign` answers for different families. -/
def agrees (a b : Address) (foreign : Bool) : Bool :=
  match a.compare? b with
  | some order => order == .eq
  | none => foreign

theorem agrees_self_iff {a b : Address} : a.agrees b false = true ↔ a = b := by
  rw [agrees, compare?]
  split
  · rename_i order h
    split at h
    · rename_i hf
      rw [← Option.some.inj h, beq_iff_eq, Nat.compare_eq_eq]
      exact ⟨eq_of_value_eq hf, fun h => h ▸ rfl⟩
    · cases h
  · rename_i h
    split at h
    · cases h
    · rename_i hf
      exact ⟨nofun, fun h => absurd (congrArg family h) hf⟩

end Address

end NetRanges
