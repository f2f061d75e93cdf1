import NetRanges.Block.Basic
import NetRanges.Cover.Basic

/-!
# The blocks of a range

A range is cut into blocks from its lower end: each time the largest block is taken that
starts at the first value left and does not reach beyond the last one. Two things bound
it, how often two divides the first value and how many values are left. The blocks come in
ascending order, and no shorter list of blocks has the same addresses.
-/

namespace NetRanges

/-- How often two divides `n`, counted up to `limit`. -/
def twos : (limit : Nat) → (n : Nat) → Nat
  | 0, _ => 0
  | limit + 1, n => if n % 2 = 0 then twos limit (n / 2) + 1 else 0

/-- The values from `start` to `stop`, still to be cut into blocks. -/
structure Stretch where
  family : Family
  start : Nat
  stop : Nat
deriving DecidableEq, Repr

namespace Stretch

/-- How many values are left. -/
def remaining (s : Stretch) : Nat :=
  s.stop - s.start + 1

/-- The most host bits of a block that starts at the first value. -/
def alignment (s : Stretch) : Nat :=
  twos s.family.bits s.start

/-- How many leading bits the next block fixes. -/
def length (s : Stretch) : Nat :=
  max (s.family.bits - s.alignment) (s.family.bits - s.remaining.log2)

/-- How many values the next block takes. -/
def taken (s : Stretch) : Nat :=
  Nat.pow 2 (s.family.bits - s.length)

def block (s : Stretch) : Block :=
  ⟨.ofNat s.family s.start, s.length⟩

def next (s : Stretch) : Stretch :=
  { s with start := s.start + s.taken }

theorem taken_pos (s : Stretch) : 0 < s.taken :=
  Nat.two_pow_pos _

/-- What is left before each block, from the first one to the last one. -/
def run (s : Stretch) : List Stretch :=
  s :: if s.next.start ≤ s.stop then s.next.run else []
termination_by s.stop - s.start
decreasing_by
  have := s.taken_pos
  simp only [next] at *
  omega

end Stretch

namespace Range

/-- The blocks that make up a range. All addresses of a family are one block. -/
def blocks (r : Range) : List Block :=
  if r.first = 0 ∧ r.last = r.family.top then [⟨.ofNat r.family 0, 0⟩]
  else (Stretch.run ⟨r.family, r.first, r.last⟩).map Stretch.block

end Range

namespace Cover

def blocks (c : Cover) : List Block :=
  c.ranges.flatMap Range.blocks

end Cover

namespace Block

/-- The fewest blocks with the addresses of some ranges, the shorter family first. -/
def covering (rs : List Range) : List Block :=
  (Cover.ofRanges .v4 rs).blocks ++ (Cover.ofRanges .v6 rs).blocks

end Block

end NetRanges
