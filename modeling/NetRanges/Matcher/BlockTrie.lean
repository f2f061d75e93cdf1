import NetRanges.Cover.Blocks
import NetRanges.Matcher.Basic
import NetRanges.Matcher.BitTrie
import NetRanges.Number.Bits

/-!
# Matching by block

The ranges are turned into the fewest blocks with the same addresses, and each block is
stored in the trie of its family by the bits it fixes. An address is held when its bits
pass through the end of a stored block.
-/

namespace NetRanges

/-- The bits of an address, most significant first. -/
def Address.path (a : Address) : List Bool :=
  bitPath a.family.bits a.value

/-- The bits that a block fixes. -/
def Block.path (b : Block) : List Bool :=
  b.address.path.take b.length

/-- The blocks of both families. -/
structure BlockTrie where
  tries : ByFamily BitTrie
deriving DecidableEq

namespace BlockTrie

/-- The blocks of the ranges. -/
def ofRanges (rs : List Range) : BlockTrie :=
  ⟨.ofFn fun family => .ofPaths ((Cover.ofRanges family rs).blocks.map Block.path)⟩

def blocks (t : BlockTrie) : Nat :=
  (t.tries.get .v4).stored + (t.tries.get .v6).stored

instance : Matcher BlockTrie where
  contains t a foreign :=
    let trie := t.tries.get a.family
    if trie.stored = 0 then foreign else trie.holds a.path

end BlockTrie

end NetRanges
