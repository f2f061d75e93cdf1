import NetRanges.Loose.Memo
import NetRanges.RangeSet

/-!
# Contents of free text

Free text is read as a list of tokens between commas. Its contents are the addresses and
the ranges among them, kept apart, in the order of the text and with repetitions. Above a
limit on the number of tokens the work is shared, which changes nothing in the result.
-/

namespace NetRanges.Loose

/-- The addresses and ranges of a free text. -/
structure Contents where
  /-- The addresses, in the order of the text. -/
  addresses : List Address := []
  /-- The ranges, in the order of the text. -/
  ranges : List Range := []
deriving DecidableEq

namespace Contents

/-- The contents of a list of items. -/
def ofItems (items : List Item) : Contents where
  addresses := items.filterMap Item.address?
  ranges := items.filterMap Item.range?

/-- Whether there is neither an address nor a range. -/
def isEmpty (c : Contents) : Bool :=
  c.addresses.isEmpty && c.ranges.isEmpty

/-- Addresses are held if they are listed, or if a range holds them. -/
instance : Matcher Contents where
  contains c a foreign :=
    c.addresses.contains a || c.ranges.any fun r => r.contains a foreign
  containsAny c as foreign :=
    as.any (fun a => c.addresses.contains a) ||
      c.ranges.any fun r => as.any fun a => r.contains a foreign

/-- The set of the addresses and the ranges. -/
def toRangeSet (c : Contents) : RangeSet :=
  .ofRanges (c.addresses.map Range.single ++ c.ranges)

end Contents

/-- How free text is read. -/
structure Scanner where
  /-- The number of tokens above which the work is shared. -/
  shareAbove : Nat := 200
deriving DecidableEq, Repr

namespace Scanner

/-- What the tokens mean, in their order. -/
def classifyAll (s : Scanner) (tokens : List Text) : List (Option Item) :=
  if s.shareAbove < tokens.length then meaningsShared tokens else meanings tokens

/-- The contents of a text. -/
def scan (s : Scanner) (t : Text) : Contents :=
  .ofItems ((s.classifyAll (Text.pieces t)).filterMap id)

theorem classifyAll_eq_map (s : Scanner) (tokens : List Text) :
    s.classifyAll tokens = tokens.map classify := by
  rw [classifyAll, meaningsShared_eq_map, meanings_eq_map, ite_self]

end Scanner

/-- The contents of a text, read with the default limit. -/
def contentsOf (t : Text) : Contents :=
  Scanner.scan {} t

end NetRanges.Loose
