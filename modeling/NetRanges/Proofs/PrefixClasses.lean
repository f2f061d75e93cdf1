import Mathlib.Data.Set.Card
import Mathlib.Order.Interval.Finset.Nat
import NetRanges.Proofs.Partition
import NetRanges.Proofs.Paths
import NetRanges.Proofs.Words

/-!
# The addresses of a block

A block has the addresses that agree with its own one on the bits it fixes (`mem_addresses_iff`). A
block that fixes more bits than the family has is as good as one that fixes all of them. Addresses
that agree on some bits agree on fewer of them too, so two blocks have no address in common or one
has all addresses of the other (`disjoint_or_subset`). To clear the host bits of a block changes
nothing about its addresses (`extent_network`).

With masks, the first value of a block is its address with the host bits cleared and the last one is
the first one with the host bits set. What a mask sets beyond the width of the family is cut off
again (`extent_eq_masked`).
-/

namespace NetRanges

namespace Block

variable {a : Address} {b c : Block} {i : Nat}

/-- The addresses that the range of a block holds. -/
def addresses (b : Block) : Set Address :=
  {a | b.range.contains a false = true}

/-- How many bits a block fixes, at most those of its family. -/
def fixed (b : Block) : Nat :=
  min b.length b.family.bits

theorem fixed_le (b : Block) : b.fixed ≤ b.family.bits :=
  Nat.min_le_right ..

theorem hostBits_eq (b : Block) : b.hostBits = b.family.bits - b.fixed := by
  unfold hostBits fixed
  omega

/-! ## Agreement on the first bits -/

/-- A block has the addresses that agree with its own one on the bits it fixes. -/
theorem mem_addresses_iff :
    a ∈ b.addresses ↔
      a.family = b.family ∧ a.path.take b.fixed = b.address.path.take b.fixed := by
  show b.range.contains a false = true ↔ _
  rw [contains_range_iff, eq_comm, and_congr_right_iff]
  intro hfam
  have hk : b.fixed ≤ a.family.bits := hfam ▸ b.fixed_le
  rw [Address.take_path_eq_iff hfam hk, mem_extent_iff, size, hostBits_eq, hfam]

/-- What agrees with an address of a block on as many bits as the block fixes is in the block. -/
theorem subset_of_fixed_le (hle : c.fixed ≤ b.fixed) (hb : a ∈ b.addresses)
    (hc : a ∈ c.addresses) : b.addresses ⊆ c.addresses := by
  obtain ⟨hbfam, hbpath⟩ := mem_addresses_iff.mp hb
  obtain ⟨hcfam, hcpath⟩ := mem_addresses_iff.mp hc
  intro a' ha'
  obtain ⟨hfam, hpath⟩ := mem_addresses_iff.mp ha'
  refine mem_addresses_iff.mpr ⟨hfam.trans (hbfam.symm.trans hcfam), ?_⟩
  have htake : a'.path.take b.fixed = a.path.take b.fixed := hpath.trans hbpath.symm
  have hshort := congrArg (List.take c.fixed) htake
  rw [List.take_take, List.take_take, Nat.min_eq_left hle] at hshort
  exact hshort.trans hcpath

theorem disjoint_or_subset (b c : Block) :
    (∀ a ∈ b.addresses, a ∉ c.addresses) ∨ b.addresses ⊆ c.addresses ∨
      c.addresses ⊆ b.addresses := by
  by_cases h : ∃ a ∈ b.addresses, a ∈ c.addresses
  · obtain ⟨a, hb, hc⟩ := h
    rcases Nat.le_total c.fixed b.fixed with hle | hle
    · exact Or.inr (Or.inl (subset_of_fixed_le hle hb hc))
    · exact Or.inr (Or.inr (subset_of_fixed_le hle hc hb))
  · exact Or.inl fun a hb hc => h ⟨a, hb, hc⟩

/-! ## How many addresses -/

/-- The values of the addresses of a block are those between its ends. -/
theorem image_value_addresses (b : Block) :
    Address.value '' b.addresses = Set.Icc b.extent.first b.extent.last := by
  ext v
  constructor
  · rintro ⟨a, ha, rfl⟩
    exact (contains_range_iff.mp ha).2
  · intro hv
    have hlt : v < b.family.size := Nat.lt_of_le_of_lt hv.2 b.extent_last_lt
    exact ⟨⟨b.family, v, hlt⟩, contains_range_iff.mpr ⟨rfl, hv⟩, rfl⟩

theorem ncard_addresses (b : Block) : b.addresses.ncard = b.size := by
  have hinj : Set.InjOn Address.value b.addresses := by
    intro a ha a' ha' hvalue
    have hfam := (contains_range_iff.mp ha).1
    have hfam' := (contains_range_iff.mp ha').1
    exact Address.eq_of_value_eq (hfam.symm.trans hfam') hvalue
  rw [← hinj.ncard_image, image_value_addresses, Set.ncard_eq_toFinset_card', Set.toFinset_Icc,
    Nat.card_Icc, extent_last_succ, Nat.add_sub_cancel_left]

theorem count_range (b : Block) : b.range.count = b.count := by
  have hlength : b.extent.last - b.extent.first + 1 = b.size := by
    have hle := b.extent_first_le
    have hsucc := b.extent_last_succ
    omega
  show min (b.range.toExtent.last - b.range.toExtent.first + 1) countLimit = b.count
  rw [toExtent_range, hlength]
  rfl

/-! ## Without host bits -/

theorem value_network (b : Block) : b.network.address.value = b.extent.first :=
  Address.value_ofNat b.extent_first_lt

/-- A block with its host bits cleared has the values it had before. -/
theorem extent_network (b : Block) : b.network.extent = b.extent := by
  have hsize : b.network.size = b.size := rfl
  have hdiv : b.extent.first / b.size = b.address.value / b.size :=
    Nat.mul_div_cancel _ b.size_pos
  unfold extent
  rw [hsize, value_network, hdiv]

theorem range_network (b : Block) : b.network.range = b.range := by
  unfold range
  rw [extent_network]
  rfl

theorem network_network (b : Block) : b.network.network = b.network := by
  apply network_eq_self
  rw [extent_network, value_network]

/-! ## Masks -/

/-- A mask of the bits that a block fixes. -/
def mask (b : Block) : Word :=
  Word.mask b.family.bits b.fixed

def maskedFirst (b : Block) : Word :=
  .ofNat 128 b.address.value &&& b.mask

def maskedLast (b : Block) : Word :=
  b.maskedFirst ||| (~~~b.mask &&& .ofNat 128 b.family.top)

theorem testBit_value_of_le (a : Address) (hi : a.family.bits ≤ i) :
    a.value.testBit i = false :=
  Nat.testBit_lt_two_pow (Nat.lt_of_lt_of_le a.value_lt (Nat.pow_le_pow_right Nat.two_pos hi))

theorem testBit_first (b : Block) :
    b.extent.first.testBit i = (decide (b.hostBits ≤ i) && b.address.value.testBit i) := by
  show (b.address.value / 2 ^ b.hostBits * 2 ^ b.hostBits).testBit i = _
  rw [Nat.testBit_mul_two_pow, Nat.testBit_div_two_pow]
  by_cases h : b.hostBits ≤ i
  · rw [Nat.sub_add_cancel h]
  · rw [decide_eq_false h, Bool.false_and, Bool.false_and]

theorem testBit_last (b : Block) :
    b.extent.last.testBit i = (b.extent.first.testBit i || decide (i < b.hostBits)) := by
  have hlt : b.size - 1 < 2 ^ b.hostBits := Nat.sub_lt b.size_pos Nat.one_pos
  have hor : b.extent.last = b.extent.first ||| (b.size - 1) := by
    show b.address.value / b.size * b.size + (b.size - 1) =
      b.address.value / b.size * b.size ||| (b.size - 1)
    rw [Nat.mul_comm]
    exact Nat.two_pow_add_eq_or_of_lt hlt _
  rw [hor, Nat.testBit_or]
  exact congrArg _ (Nat.testBit_two_pow_sub_one _ _)

theorem getLsbD_mask (hi : i < b.family.bits) : b.mask.getLsbD i = decide (b.hostBits ≤ i) := by
  rw [mask, Word.getLsbD_mask b.family.bits_le hi, hostBits_eq]

theorem getLsbD_maskedFirst (b : Block) : b.maskedFirst.getLsbD i = b.extent.first.testBit i := by
  rw [maskedFirst, BitVec.getLsbD_and, BitVec.getLsbD_ofNat, testBit_first]
  by_cases hi : i < b.family.bits
  · have hi' : i < 128 := Nat.lt_of_lt_of_le hi b.family.bits_le
    rw [decide_eq_true hi', Bool.true_and, getLsbD_mask hi, Bool.and_comm]
  · rw [testBit_value_of_le b.address (Nat.le_of_not_lt hi), Bool.and_false, Bool.and_false,
      Bool.false_and]

theorem getLsbD_maskedLast (b : Block) : b.maskedLast.getLsbD i = b.extent.last.testBit i := by
  have htop : b.family.top.testBit i = decide (i < b.family.bits) :=
    Nat.testBit_two_pow_sub_one _ _
  rw [maskedLast, BitVec.getLsbD_or, getLsbD_maskedFirst, BitVec.getLsbD_and, BitVec.getLsbD_not,
    BitVec.getLsbD_ofNat, htop, testBit_last]
  by_cases hi : i < b.family.bits
  · have hi' : i < 128 := Nat.lt_of_lt_of_le hi b.family.bits_le
    rw [decide_eq_true hi', decide_eq_true hi, Bool.true_and, Bool.true_and, Bool.and_true,
      getLsbD_mask hi, ← decide_not, decide_eq_decide.mpr Nat.not_le]
  · have hhost : ¬i < b.hostBits := fun h => hi (Nat.lt_of_lt_of_le h (Nat.sub_le ..))
    rw [decide_eq_false hi, decide_eq_false hhost, Bool.and_false, Bool.and_false]

/-- The masked ends of a block are its ends. -/
theorem extent_eq_masked (b : Block) : b.extent = ⟨b.maskedFirst.toNat, b.maskedLast.toNat⟩ := by
  have hfirst : b.maskedFirst.toNat = b.extent.first :=
    Nat.eq_of_testBit_eq fun _ => b.getLsbD_maskedFirst
  have hlast : b.maskedLast.toNat = b.extent.last :=
    Nat.eq_of_testBit_eq fun _ => b.getLsbD_maskedLast
  rw [hfirst, hlast]

/-- **Prefix classes.** The range of a block, between the masked ends, has the addresses that agree
with the one of the block on the bits it fixes, and they are as many as the block and the range
count, up to the limit of counts. Without its host bits a block has the same range, and there are
then none left to clear. Two blocks have no address in common or one has all those of the other. -/
theorem prefix_class (b : Block) :
    b.range.toExtent = ⟨b.maskedFirst.toNat, b.maskedLast.toNat⟩ ∧
      (∀ a : Address, b.range.contains a false = true ↔ a.family = b.family ∧
        a.path.take (min b.length b.family.bits) =
          b.address.path.take (min b.length b.family.bits)) ∧
      (min b.addresses.ncard countLimit = b.count ∧ b.range.count = b.count) ∧
      (b.network.range = b.range ∧ b.network.network = b.network) ∧
      ∀ c : Block, (∀ a ∈ b.addresses, a ∉ c.addresses) ∨ b.addresses ⊆ c.addresses ∨
        c.addresses ⊆ b.addresses := by
  refine ⟨?_, fun a => mem_addresses_iff, ⟨?_, b.count_range⟩, ?_, b.disjoint_or_subset⟩
  · rw [toExtent_range, extent_eq_masked]
  · rw [ncard_addresses]
    rfl
  · exact ⟨b.range_network, b.network_network⟩

end Block

end NetRanges
