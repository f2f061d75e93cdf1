import NetRanges.Proofs.Cutting

/-!
# Words

A word has 128 bits. It has room for the value of every address, but not for the number of all
addresses of the longer family. Where two divides a word is read off the zeros that it ends with
(`toNat_zeros`), and the largest power of two in a word off the zeros that it starts with
(`toNat_log2`). A mask keeps the leading bits of an address: its bits are ones down to the first
host bit and zeros from there on (`getLsbD_mask`).
-/

namespace NetRanges

/-- A number of 128 bits. -/
abbrev Word := BitVec 128

theorem Family.bits_le (f : Family) : f.bits ≤ 128 := by
  cases f <;> decide

theorem Family.size_le_pow (f : Family) : f.size ≤ Nat.pow 2 128 :=
  Nat.pow_le_pow_right Nat.two_pos f.bits_le

namespace Word

variable {x y : Word} {k n i : Nat}

theorem toNat_ofNat (h : n < Nat.pow 2 128) : (BitVec.ofNat 128 n).toNat = n :=
  Nat.mod_eq_of_lt h

theorem toNat_one : (1 : Word).toNat = 1 := rfl

theorem uaddOverflow_eq_false_iff :
    x.uaddOverflow y = false ↔ x.toNat + y.toNat < Nat.pow 2 128 :=
  decide_eq_false_iff_not.trans Nat.not_le

/-- A sum that does not wrap around is the sum of the numbers. -/
theorem toNat_add (h : x.uaddOverflow y = false) : (x + y).toNat = x.toNat + y.toNat :=
  BitVec.toNat_add_of_not_uaddOverflow (Bool.eq_false_iff.mp h)

/-! ## Zeros at the end -/

/-- With how many zeros a word ends, counted up to `limit`. -/
def zeros (limit : Nat) (x : Word) : UInt8 :=
  .ofNat (min x.ctz.toNat limit)

theorem pow_dvd_of_le_ctz (hk : k ≤ x.ctz.toNat) : Nat.pow 2 k ∣ x.toNat := by
  apply Nat.dvd_of_mod_eq_zero
  apply Nat.eq_of_testBit_eq
  intro i
  show (x.toNat % 2 ^ k).testBit i = Nat.testBit 0 i
  rw [Nat.testBit_mod_two_pow, Nat.zero_testBit]
  by_cases hi : i < k
  · have hbit : x.toNat.testBit i = false :=
      BitVec.getLsbD_false_of_lt_ctz (Nat.lt_of_lt_of_le hi hk)
    rw [hbit, Bool.and_false]
  · rw [decide_eq_false hi, Bool.false_and]

theorem le_ctz_of_pow_dvd (hk : k ≤ 128) (hdvd : Nat.pow 2 k ∣ x.toNat) : k ≤ x.ctz.toNat := by
  refine Nat.le_of_not_lt fun hlt => ?_
  -- The word is not zero, since only zero ends with 128 zeros; so it has a one after them.
  have hne : x ≠ 0 := BitVec.ctz_lt_iff_ne_zero.mp (Nat.lt_of_lt_of_le hlt hk)
  have hone : x.toNat.testBit x.ctz.toNat = true := BitVec.getLsbD_true_ctz_of_ne_zero hne
  obtain ⟨q, hq⟩ := hdvd
  have hzero : (2 ^ k * q).testBit x.ctz.toNat = false := by
    rw [Nat.testBit_two_pow_mul, decide_eq_false (Nat.not_le_of_lt hlt), Bool.false_and]
  have heq : x.toNat = 2 ^ k * q := hq
  rw [← heq, hone] at hzero
  cases hzero

/-- The zeros at the end count how often two divides a word. -/
theorem toNat_zeros {limit : Nat} (hlimit : limit ≤ 128) (x : Word) :
    (zeros limit x).toNat = twos limit x.toNat := by
  have hle : min x.ctz.toNat limit ≤ twos limit x.toNat :=
    le_twos (Nat.min_le_right ..) (pow_dvd_of_le_ctz (Nat.min_le_left ..))
  have htwos : twos limit x.toNat ≤ limit := twos_le ..
  have hge : twos limit x.toNat ≤ x.ctz.toNat :=
    le_ctz_of_pow_dvd (Nat.le_trans htwos hlimit) (pow_twos_dvd ..)
  have hsize : min x.ctz.toNat limit < UInt8.size :=
    Nat.lt_of_le_of_lt (Nat.le_trans (Nat.min_le_right ..) hlimit) (by decide)
  rw [zeros, UInt8.toNat_ofNat_of_lt' hsize]
  omega

/-! ## Zeros at the start -/

/-- The place of the first one of a word, counted from the end. -/
def log2 (x : Word) : UInt8 :=
  .ofNat (127 - x.clz.toNat)

theorem toNat_log2 (hx : x ≠ 0) : (log2 x).toNat = x.toNat.log2 := by
  have hclz : x.clz.toNat < 128 := BitVec.clz_lt_iff_ne_zero.mpr hx
  have hne : x.toNat ≠ 0 := fun h => hx (BitVec.eq_of_toNat_eq h)
  have hle : 2 ^ (127 - x.clz.toNat) ≤ x.toNat :=
    BitVec.two_pow_sub_clz_le_toNat_of_ne_zero (by decide) hx
  have hlt : x.toNat < 2 ^ (127 - x.clz.toNat + 1) := by
    have h := BitVec.toNat_lt_two_pow_sub_clz (x := x)
    rwa [show 128 - x.clz.toNat = 127 - x.clz.toNat + 1 by omega] at h
  have hsize : 127 - x.clz.toNat < UInt8.size := Nat.lt_of_le_of_lt (Nat.sub_le ..) (by decide)
  rw [log2, UInt8.toNat_ofNat_of_lt' hsize]
  exact ((Nat.log2_eq_iff hne).mpr ⟨hle, hlt⟩).symm

/-! ## Powers and masks -/

theorem toNat_one_shiftLeft (hn : n < 128) : ((1 : Word) <<< n).toNat = Nat.pow 2 n := by
  have hlt : 2 ^ n < 2 ^ 128 := Nat.pow_lt_pow_right (by decide) hn
  rw [BitVec.toNat_shiftLeft, toNat_one, Nat.one_shiftLeft, Nat.mod_eq_of_lt hlt]
  rfl

/-- As many ones as `n` says, at the end of a word. -/
def ones (n : Nat) : Word :=
  ((1 : Word) <<< n) - 1

theorem toNat_ones (hn : n < 128) : (ones n).toNat = Nat.pow 2 n - 1 := by
  have hpow := toNat_one_shiftLeft hn
  have hpos : 0 < Nat.pow 2 n := Nat.two_pow_pos n
  have hle : (1 : Word) ≤ (1 : Word) <<< n := by
    rw [BitVec.le_def, hpow]
    exact hpos
  rw [ones, BitVec.toNat_sub_of_le hle, hpow]
  rfl

theorem getLsbD_ones (hn : n < 128) : (ones n).getLsbD i = decide (i < n) := by
  have hbit : (ones n).getLsbD i = (2 ^ n - 1).testBit i :=
    congrArg (fun m => Nat.testBit m i) (toNat_ones hn)
  rw [hbit, Nat.testBit_two_pow_sub_one]

/-- A word of `bits` bits whose first `length` bits are ones and whose other bits are zeros. If all
of its bits are ones, so are the bits before them. -/
def mask (bits length : Nat) : Word :=
  if length = 0 then 0#128
  else if bits ≤ length then ~~~0#128
  else
    let all := if bits = 128 then ~~~0#128 else ones bits
    all &&& ~~~ones (bits - length)

theorem getLsbD_mask {bits length : Nat} (hbits : bits ≤ 128) (hi : i < bits) :
    (mask bits length).getLsbD i = decide (bits - length ≤ i) := by
  have hi' : i < 128 := Nat.lt_of_lt_of_le hi hbits
  have hfull : (~~~0#128).getLsbD i = true := by
    rw [BitVec.getLsbD_not, decide_eq_true hi', BitVec.getLsbD_zero]
    rfl
  unfold mask
  by_cases hzero : length = 0
  · rw [if_pos hzero, BitVec.getLsbD_zero, eq_comm, decide_eq_false_iff_not]
    omega
  · rw [if_neg hzero]
    by_cases hall : bits ≤ length
    · rw [if_pos hall, hfull, eq_comm, decide_eq_true_iff]
      omega
    · have hkept : (if bits = 128 then ~~~0#128 else ones bits).getLsbD i = true := by
        by_cases hword : bits = 128
        · rw [if_pos hword, hfull]
        · rw [if_neg hword, getLsbD_ones (by omega), decide_eq_true_iff]
          exact hi
      rw [if_neg hall, BitVec.getLsbD_and, hkept, Bool.true_and, BitVec.getLsbD_not,
        decide_eq_true hi', Bool.true_and, getLsbD_ones (by omega), ← decide_not, decide_eq_decide]
      exact Nat.not_lt

end Word

end NetRanges
