import NetRanges.Matcher.BlockTrie

/-!
# Paths of blocks

The first bits of a number are the bits of its quotient by a power of two, and two numbers
that fit the width have equal bits only when they are equal. So an address passes through the
end of the path of a block exactly when the block has its value (`path_isPrefix_iff`).
-/

namespace NetRanges

theorem testBit_eq_of_bitPath_eq {width m n : Nat} (h : bitPath width m = bitPath width n)
    {i : Nat} (hi : i < width) : m.testBit i = n.testBit i := by
  induction width with
  | zero => exact absurd hi (Nat.not_lt_zero i)
  | succ width ih =>
    obtain ⟨hbit, hrest⟩ := List.cons.inj h
    rcases Nat.lt_succ_iff_lt_or_eq.mp hi with hlt | rfl
    · exact ih hrest hlt
    · exact hbit

theorem eq_of_bitPath_eq {width m n : Nat} (hm : m < Nat.pow 2 width) (hn : n < Nat.pow 2 width)
    (h : bitPath width m = bitPath width n) : m = n := by
  apply Nat.eq_of_testBit_eq
  intro i
  by_cases hi : i < width
  · exact testBit_eq_of_bitPath_eq h hi
  · have hpow : Nat.pow 2 width ≤ Nat.pow 2 i :=
      Nat.pow_le_pow_right (by omega) (Nat.le_of_not_lt hi)
    rw [Nat.testBit_lt_two_pow (Nat.lt_of_lt_of_le hm hpow),
      Nat.testBit_lt_two_pow (Nat.lt_of_lt_of_le hn hpow)]

/-- The first bits of a number are the bits of what a division leaves of it. -/
theorem take_bitPath (k low n : Nat) :
    (bitPath (k + low) n).take k = bitPath k (n / Nat.pow 2 low) := by
  induction k with
  | zero => rfl
  | succ k ih =>
    have hbit : (n / Nat.pow 2 low).testBit k = n.testBit (k + low) :=
      Nat.testBit_div_two_pow n k
    rw [Nat.add_right_comm, bitPath, List.take_succ_cons, ih, bitPath, hbit]

theorem div_pow_lt {k low n : Nat} (h : n < Nat.pow 2 (k + low)) :
    n / Nat.pow 2 low < Nat.pow 2 k := by
  apply Nat.div_lt_of_lt_mul
  have hpow : Nat.pow 2 (k + low) = Nat.pow 2 k * Nat.pow 2 low := Nat.pow_add 2 k low
  rwa [hpow, Nat.mul_comm] at h

namespace Address

theorem take_path (a : Address) {k : Nat} (hk : k ≤ a.family.bits) :
    a.path.take k = bitPath k (a.value / Nat.pow 2 (a.family.bits - k)) := by
  have h := take_bitPath k (a.family.bits - k) a.value
  rwa [Nat.add_sub_cancel' hk] at h

theorem div_pow_value_lt (a : Address) {k : Nat} (hk : k ≤ a.family.bits) :
    a.value / Nat.pow 2 (a.family.bits - k) < Nat.pow 2 k := by
  apply div_pow_lt
  rw [Nat.add_sub_cancel' hk]
  exact a.value_lt

/-- Two addresses agree on their first bits when a division leaves the same of both. -/
theorem take_path_eq_iff {a b : Address} (hfam : a.family = b.family) {k : Nat}
    (hk : k ≤ a.family.bits) :
    a.path.take k = b.path.take k ↔
      a.value / Nat.pow 2 (a.family.bits - k) = b.value / Nat.pow 2 (a.family.bits - k) := by
  have hkb : k ≤ b.family.bits := hfam ▸ hk
  rw [a.take_path hk, b.take_path hkb, ← hfam]
  constructor
  · intro h
    refine eq_of_bitPath_eq (a.div_pow_value_lt hk) ?_ h
    have hb := b.div_pow_value_lt hkb
    rwa [← hfam] at hb
  · intro h
    rw [h]

end Address

namespace Block

theorem length_path {b : Block} (hb : b.length ≤ b.family.bits) : b.path.length = b.length := by
  have hpath : b.address.path.length = b.family.bits := length_bitPath _ _
  rw [path, List.length_take, hpath, Nat.min_eq_left hb]

theorem mem_extent_iff {b : Block} {v : Nat} :
    v ∈ b.extent ↔ v / b.size = b.address.value / b.size := by
  have hpos := b.size_pos
  rw [Nat.div_eq_iff hpos]
  show b.address.value / b.size * b.size ≤ v ∧
    v ≤ b.address.value / b.size * b.size + (b.size - 1) ↔ _
  omega

/-- The bits of an address start with those that a block fixes when the block has it. -/
theorem path_isPrefix_iff {b : Block} {a : Address} (hfam : a.family = b.family)
    (hb : b.length ≤ b.family.bits) : b.path <+: a.path ↔ a.value ∈ b.extent := by
  have hk : b.length ≤ a.family.bits := hfam ▸ hb
  rw [List.prefix_iff_eq_take, length_path hb, eq_comm, path, Address.take_path_eq_iff hfam hk,
    mem_extent_iff, size, hostBits, hfam]

end Block

end NetRanges
