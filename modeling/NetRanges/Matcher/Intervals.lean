import NetRanges.Cover.Basic
import NetRanges.Matcher.Basic
import NetRanges.Matcher.Sweep

/-!
# Matching by binary search

The covers of both families answer for one address by binary search, and for many
addresses by one sweep along each cover.
-/

namespace NetRanges

/-- The covers of both families. -/
structure IntervalIndex where
  covers : ByFamily Cover
deriving DecidableEq

namespace IntervalIndex

/-- The covers of the ranges. -/
def ofRanges (rs : List Range) : IntervalIndex :=
  ⟨Cover.both rs⟩

def cover (i : IntervalIndex) (family : Family) : Cover :=
  i.covers.get family

def size (i : IntervalIndex) : Nat :=
  (i.cover .v4).size + (i.cover .v6).size

def isEmpty (i : IntervalIndex) : Bool :=
  i.size == 0

/-- The extents as ranges, the shorter family first. -/
def ranges (i : IntervalIndex) : List Range :=
  (i.cover .v4).ranges ++ (i.cover .v6).ranges

/-- Whether any of the addresses is held, by one sweep for each family. -/
def containsAnySorted (i : IntervalIndex) (as : List Address) (foreign : Bool) : Bool :=
  [Family.v4, Family.v6].any fun family =>
    Sweep.anyOf family as (i.cover family).extents foreign

instance : Matcher IntervalIndex where
  contains i a foreign :=
    let c := i.cover a.family
    if c.isEmpty then foreign else c.holds a.value

end IntervalIndex

end NetRanges
