import NetRanges.Item.Basic
import NetRanges.Matcher.Compiled

/-!
# Sets of ranges

A set keeps its ranges in ascending order without repetitions, as they were given and not
joined, together with the matcher compiled from them. Sets are equal when they have the
same ranges, whatever their matchers were compiled with. The text of a set lists its
ranges between brackets; it is read without the brackets, piece by piece.
-/

namespace NetRanges

/-- Ranges in ascending order with a matcher for them. -/
structure RangeSet where
  /-- The ranges, in ascending order and without repetitions. -/
  ranges : List Range
  matcher : Compiled

namespace RangeSet

/-- The set of some ranges, its matcher compiled with the given options. -/
def ofRanges (rs : List Range) (options : Options := {}) : RangeSet :=
  let sorted := (Range.sort rs).eraseReps
  ⟨sorted, .ofRanges sorted options⟩

theorem ofRanges_congr {rs rs' : List Range} (h : rs.Perm rs') (options : Options) :
    ofRanges rs options = ofRanges rs' options := by
  unfold ofRanges
  rw [Range.sort_congr h]

def size (s : RangeSet) : Nat :=
  s.ranges.length

def isEmpty (s : RangeSet) : Bool :=
  s.ranges.isEmpty

/-- The joined ranges of a set. -/
def joined (s : RangeSet) : List Range :=
  s.matcher.ranges

instance : BEq RangeSet :=
  ⟨fun s t => s.ranges == t.ranges⟩

/-- The texts of the ranges between brackets. -/
def text (s : RangeSet) : Text :=
  Range.listText s.ranges

instance : ToString RangeSet :=
  ⟨fun s => String.ofList s.text⟩

/-- The set of the ranges that the pieces of a text write. -/
def ofText (t : Text) : Except Error RangeSet :=
  (Range.ofTexts (Text.pieces t)).map fun rs => ofRanges rs

instance : Matcher RangeSet where
  contains s a foreign := contains s.matcher a foreign
  containsAny s as foreign := containsAny s.matcher as foreign

end RangeSet

end NetRanges
