import NetRanges.Cover.Basic
import NetRanges.Matcher.Basic
import NetRanges.Matcher.Sweep

/-!
# Matching by linear scan

The extents of the ranges are kept in ascending order without repetitions, but are not
joined. A scan for one address stops at the first extent that starts above it.
-/

namespace NetRanges

/-- The extents of both families, in ascending order. -/
structure ScanList where
  extents : ByFamily (List Extent)
deriving DecidableEq

namespace ScanList

/-- The extents of the ranges, sorted and without repetitions. -/
def ofRanges (rs : List Range) : ScanList :=
  ⟨.ofFn fun family => (Extent.sort (Cover.extentsOf family rs)).eraseReps⟩

/-- Whether a value lies in one of the extents, looking no further than the first one that
starts above it. -/
def scan (v : Nat) : List Extent → Bool
  | [] => false
  | e :: es => if v < e.first then false else if v ≤ e.last then true else scan v es

instance : Matcher ScanList where
  contains s a foreign :=
    let es := s.extents.get a.family
    if es.isEmpty then foreign else scan a.value es
  containsAny s as foreign :=
    [Family.v4, Family.v6].any fun family =>
      Sweep.anyOf family as (s.extents.get family) foreign

end ScanList

end NetRanges
