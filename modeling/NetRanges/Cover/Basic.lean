import NetRanges.Range.Basic

/-!
# Covers

A cover holds the addresses of one family that lie in any of some ranges, as extents in
ascending order with gaps between them. It is built by sorting the ranges of both families
together and joining neighbours that overlap or touch; neighbours of different families are
never joined. Starts and ends are kept in two arrays. Because of the gaps, the only extent
that can hold a value is the last one that starts at or below it, which a binary search
finds among the starts.
-/

namespace NetRanges

namespace Range

/-- Whether a range that does not start before `r` overlaps or touches it. No value comes
after the top of the longer family. -/
def Meets (r next : Range) : Prop :=
  next.family = r.family ∧ next.first ≤ min (r.last + 1) Family.v6.top

instance (r next : Range) : Decidable (r.Meets next) :=
  inferInstanceAs (Decidable (_ ∧ _))

/-- The range from the start of `r` to the later one of two ends. -/
def through (r next : Range) (h : next.family = r.family) : Range where
  family := r.family
  first := r.first
  last := max r.last next.last
  first_le_last := Nat.le_trans r.first_le_last (Nat.le_max_left ..)
  last_lt := Nat.max_lt.mpr ⟨r.last_lt, h ▸ next.last_lt⟩

/-- Joins `current` with the ranges after it, which are in ascending order. -/
def joinAfter (current : Range) : List Range → List Range
  | [] => [current]
  | next :: rest =>
    if h : current.Meets next then joinAfter (current.through next h.1) rest
    else current :: joinAfter next rest

/-- Joins ranges in ascending order where they overlap or touch. -/
def join : List Range → List Range
  | [] => []
  | r :: rest => joinAfter r rest

end Range

/-- The extents that addresses of one family lie in. -/
structure Cover where
  family : Family
  /-- The least number of each extent, in ascending order. -/
  starts : Array Nat
  /-- The greatest number of each extent, in the same order. -/
  ends : Array Nat
deriving DecidableEq

namespace Cover

def empty (family : Family) : Cover :=
  ⟨family, #[], #[]⟩

/-- The cover with one more extent after all others. -/
def push (c : Cover) (e : Extent) : Cover :=
  { c with starts := c.starts.push e.first, ends := c.ends.push e.last }

def ofExtents (family : Family) (es : List Extent) : Cover :=
  es.foldl push (empty family)

def extents (c : Cover) : List Extent :=
  c.starts.toList.zipWith Extent.mk c.ends.toList

/-- The extents of those ranges that belong to a family. -/
def extentsOf (family : Family) (rs : List Range) : List Extent :=
  (rs.filter fun r => r.family = family).map Range.toExtent

/-- The covers of ranges, one for each family. -/
def both (rs : List Range) : ByFamily Cover :=
  let joined := Range.join (Range.sort rs)
  .ofFn fun family => ofExtents family (extentsOf family joined)

/-- The cover of those ranges that belong to a family. -/
def ofRanges (family : Family) (rs : List Range) : Cover :=
  (both rs).get family

def size (c : Cover) : Nat :=
  c.starts.size

def isEmpty (c : Cover) : Bool :=
  c.starts.isEmpty

/-- The first place from `lo` to `hi` where a start is above `v`, for starts in ascending
order that are at or below `v` before `lo` and above it from `hi` on. -/
def placeAbove (starts : Array Nat) (v lo hi : Nat) (h : hi ≤ starts.size) : Nat :=
  if hlt : lo < hi then
    let mid := (lo + hi) / 2
    if starts[mid] ≤ v then placeAbove starts v (mid + 1) hi h
    else placeAbove starts v lo mid (by omega)
  else lo
termination_by hi - lo

/-- Whether a value lies in the last extent that starts at or below it. -/
def holds (c : Cover) (v : Nat) : Bool :=
  match placeAbove c.starts v 0 c.starts.size (Nat.le_refl _) with
  | 0 => false
  | place + 1 => c.ends[place]?.any fun last => v ≤ last

/-- The extents of a cover as ranges, in ascending order. -/
def ranges (c : Cover) : List Range :=
  c.extents.map fun e => .spanning c.family e.first e.last

theorem foldl_push (es : List Extent) (c : Cover) :
    es.foldl push c =
      ⟨c.family, c.starts ++ (es.map Extent.first).toArray,
        c.ends ++ (es.map Extent.last).toArray⟩ := by
  induction es generalizing c with
  | nil => simp
  | cons e es ih =>
    rw [List.foldl_cons, ih]
    simp [push]

@[simp] theorem family_ofExtents (family : Family) (es : List Extent) :
    (ofExtents family es).family = family := by
  rw [ofExtents, foldl_push]
  rfl

@[simp] theorem starts_ofExtents (family : Family) (es : List Extent) :
    (ofExtents family es).starts = (es.map Extent.first).toArray := by
  simp [ofExtents, foldl_push, empty]

@[simp] theorem ends_ofExtents (family : Family) (es : List Extent) :
    (ofExtents family es).ends = (es.map Extent.last).toArray := by
  simp [ofExtents, foldl_push, empty]

@[simp] theorem extents_ofExtents (family : Family) (es : List Extent) :
    (ofExtents family es).extents = es := by
  simp [extents]

/-- The cover of a family comes from the joined ranges of that family. -/
theorem ofRanges_eq (family : Family) (rs : List Range) :
    ofRanges family rs = ofExtents family (extentsOf family (Range.join (Range.sort rs))) :=
  ByFamily.get_ofFn _ _

end Cover

end NetRanges
