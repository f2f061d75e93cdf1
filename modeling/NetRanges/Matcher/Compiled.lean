import NetRanges.Matcher.BlockTrie
import NetRanges.Matcher.Intervals

/-!
# Compiled matchers

A compiled matcher always has the covers of its ranges. Whether it also has a trie is
decided by the options it is compiled with. A trie answers for a single address; several
addresses at once are always answered by a sweep along the covers.
-/

namespace NetRanges

/-- How a compiled matcher looks up a single address. -/
inductive Strategy where
  /-- By trie if there are many extents, by binary search otherwise. -/
  | auto
  | sortedIntervals
  | prefixTrie
deriving DecidableEq, Repr

namespace Strategy

def name : Strategy → String
  | auto => "auto"
  | sortedIntervals => "sorted_intervals"
  | prefixTrie => "prefix_trie"

def ofName? (name : Text) : Option Strategy :=
  [auto, sortedIntervals, prefixTrie].find? fun s => s.name.toList == name

end Strategy

/-- What a matcher is compiled with. -/
structure Options where
  strategy : Strategy := .auto
  /-- The number of extents above which the automatic strategy takes a trie. -/
  trieThreshold : UInt64 := 1024
deriving DecidableEq, Repr

/-- Whether a number of extents asks for a trie. -/
def Options.wantsTrie (o : Options) (extents : Nat) : Bool :=
  match o.strategy with
  | .auto => o.trieThreshold.toNat < extents
  | .sortedIntervals => false
  | .prefixTrie => true

/-- Ranges prepared for questions. -/
structure Compiled where
  /-- The covers of the ranges. -/
  index : IntervalIndex
  /-- The blocks of the ranges, if the options ask for them. -/
  trie : Option BlockTrie
deriving DecidableEq

namespace Compiled

/-- Prepares ranges for questions. -/
def ofRanges (rs : List Range) (options : Options := {}) : Compiled :=
  let index := IntervalIndex.ofRanges rs
  ⟨index, if options.wantsTrie index.size then some (.ofRanges index.ranges) else none⟩

def strategy (m : Compiled) : Strategy :=
  if m.trie.isSome then .prefixTrie else .sortedIntervals

/-- The joined ranges, the shorter family first. -/
def ranges (m : Compiled) : List Range :=
  m.index.ranges

/-- Whether one address is held, looked up by trie if there is one. -/
def holds (m : Compiled) (a : Address) (foreign : Bool) : Bool :=
  match m.trie with
  | some trie => contains trie a foreign
  | none => contains m.index a foreign

instance : Matcher Compiled where
  contains := holds
  containsAny m as foreign :=
    match as with
    | [] => false
    | [a] => m.holds a foreign
    | as => m.index.containsAnySorted as foreign

end Compiled

end NetRanges
