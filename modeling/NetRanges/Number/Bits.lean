/-!
# Bits as paths

The bits of a number, most significant first, are the path that leads to it in a binary
trie. A block is reached by the first bits of any of its addresses.
-/

namespace NetRanges

/-- The `width` lowest bits of `n`, most significant first. -/
def bitPath : (width : Nat) → (n : Nat) → List Bool
  | 0, _ => []
  | width + 1, n => n.testBit width :: bitPath width n

@[simp] theorem length_bitPath (width n : Nat) : (bitPath width n).length = width := by
  induction width with
  | zero => rfl
  | succ width ih => simp [bitPath, ih]

end NetRanges
