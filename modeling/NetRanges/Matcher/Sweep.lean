import NetRanges.Address.Basic
import NetRanges.Extent

/-!
# Sweeping queries along extents

A sweep asks whether any of several values lies in any of several extents. With both lists
in ascending order it needs one pass: a value before the first extent is in no later one
either, and an extent that ends before the first value holds no later value. Each step
drops a value or an extent, or ends the sweep.
-/

namespace NetRanges

/-- The values and extents that a sweep has not dropped yet. -/
structure Sweep where
  values : List Nat
  extents : List Extent
deriving DecidableEq, Repr

namespace Sweep

/-- What a step of a sweep leads to. -/
inductive Outcome where
  | more (s : Sweep)
  | done (found : Bool)

/-- Drops the first value or the first extent, unless the one lies in the other. -/
def step : Sweep → Outcome
  | ⟨v :: vs, e :: es⟩ =>
    if v < e.first then .more ⟨vs, e :: es⟩
    else if e.last < v then .more ⟨v :: vs, es⟩
    else .done true
  | _ => .done false

def size (s : Sweep) : Nat :=
  s.values.length + s.extents.length

theorem size_of_step {s t : Sweep} (h : s.step = .more t) : t.size + 1 = s.size := by
  unfold step at h
  split at h
  · split at h
    · cases h
      simp [size]
      omega
    · split at h
      · cases h
        simp [size]
        omega
      · cases h
  · cases h

def run (s : Sweep) : Bool :=
  match h : s.step with
  | .more t =>
    have := size_of_step h
    t.run
  | .done found => found
termination_by s.size

/-- How many steps of a sweep drop something. -/
def drops (s : Sweep) : Nat :=
  match h : s.step with
  | .more t =>
    have := size_of_step h
    t.drops + 1
  | .done _ => 0
termination_by s.size

/-- The values of those addresses that belong to a family, in ascending order. -/
def valuesOf (family : Family) (as : List Address) : List Nat :=
  ((as.filter fun a => a.family = family).map Address.value).mergeSort fun v w => v ≤ w

/-- Whether any of the addresses of a family lies in one of its extents, where `foreign`
answers if there are no extents. -/
def anyOf (family : Family) (as : List Address) (extents : List Extent) (foreign : Bool) :
    Bool :=
  let values := valuesOf family as
  if values.isEmpty then false
  else if extents.isEmpty then foreign
  else run ⟨values, extents⟩

end Sweep

end NetRanges
