import NetRanges.Range.Basic

/-!
# Blocks

A block is an address and a length: it stands for all addresses of the family that agree
with the given one on that many leading bits. The remaining bits are the host bits, and
they need not be zero. A length above the width of the family fixes every bit. The checked
constructor `of` refuses such lengths, the plain one does not.
-/

namespace NetRanges

/-- The addresses that agree with `address` on the first `length` bits. -/
structure Block where
  address : Address
  /-- How many leading bits are fixed. -/
  length : Nat
deriving DecidableEq

namespace Block

def family (b : Block) : Family :=
  b.address.family

/-- How many bits are not fixed. -/
def hostBits (b : Block) : Nat :=
  b.family.bits - b.length

/-- How many addresses a block has. -/
def size (b : Block) : Nat :=
  Nat.pow 2 b.hostBits

/-- How many addresses a block has, up to the limit of counts. -/
def count (b : Block) : Nat :=
  min b.size countLimit

/-- The text of the address, a slash and the length. -/
def text (b : Block) : Text :=
  b.address.text ++ ['/'] ++ Numeral.write 10 b.length

instance : ToString Block :=
  ⟨fun b => String.ofList b.text⟩

/-- The block of an address and a length, if the family is wide enough. -/
def of (a : Address) (length : Nat) : Except Error Block :=
  if length ≤ a.family.bits then .ok ⟨a, length⟩
  else .error (.invalidPrefix (text ⟨a, length⟩))

def host (a : Address) : Block :=
  ⟨a, a.family.bits⟩

/-- Whether the length is exactly the width of the family. -/
def isHost (b : Block) : Bool :=
  b.length == b.family.bits

/-- The values of the addresses of a block. -/
def extent (b : Block) : Extent where
  first := b.address.value / b.size * b.size
  last := b.address.value / b.size * b.size + (b.size - 1)

/-- The block with its host bits cleared. -/
def network (b : Block) : Block :=
  ⟨.ofNat b.family b.extent.first, b.length⟩

/-- The addresses of a block as a range. -/
def range (b : Block) : Range :=
  .spanning b.family b.extent.first b.extent.last

theorem size_pos (b : Block) : 0 < b.size :=
  Nat.two_pow_pos _

theorem size_dvd_family_size (b : Block) : b.size ∣ b.family.size :=
  Nat.pow_dvd_pow 2 (Nat.sub_le ..)

theorem extent_first_le (b : Block) : b.extent.first ≤ b.extent.last :=
  Nat.le_add_right ..

/-- A block ends within its family. -/
theorem extent_last_lt (b : Block) : b.extent.last < b.family.size := by
  obtain ⟨k, hk⟩ := b.size_dvd_family_size
  have hv : b.address.value / b.size < k := by
    apply Nat.div_lt_of_lt_mul
    exact hk ▸ b.address.value_lt
  have hmul : (b.address.value / b.size + 1) * b.size ≤ k * b.size := Nat.mul_le_mul_right _ hv
  rw [Nat.add_mul, Nat.one_mul] at hmul
  have hpos := b.size_pos
  rw [hk, Nat.mul_comm b.size k]
  simp only [extent]
  omega

theorem toExtent_range (b : Block) : b.range.toExtent = b.extent :=
  Range.toExtent_spanning b.extent_first_le b.extent_last_lt

end Block

end NetRanges
