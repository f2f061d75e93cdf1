import Mathlib.Algebra.Ring.Nat
import NetRanges.Proofs.Partition

/-!
# The sizes of the blocks of a range

A stretch rises while twice its next block still fits into what is left, and falls from then on.
While it rises, only the start bounds the block, and the start after it is divisible by twice its
size (`two_mul_taken_dvd_next`), so the next block is larger. Once it falls, less is left after a
block than the block has taken, so all later ones are smaller (`taken_lt_of_falls`). The sizes of a
run hence rise and then fall (`Valid.exists_run_eq_append`).

Of powers of two that rise or fall, `n` have at least `2 ^ n - 1` as their sum
(`two_pow_length_le_sum`), and the sizes of a run have the number of values left as theirs
(`Valid.sum_taken_run`). This leaves no room for more than `2 * bits - 2` blocks.
-/

namespace NetRanges

/-- Numbers that rise strictly and then fall strictly. Two neighbours may be equal at the peak only,
the last one that rises and the first one that falls. -/
def Unimodal (ns : List Nat) : Prop :=
  ∃ up down, ns = up ++ down ∧ up.Pairwise (· < ·) ∧ down.Pairwise (· > ·)

namespace Stretch

variable {s t : Stretch} {k : Nat}

/-! ## What is left -/

theorem Valid.remaining_next (hs : s.Valid) (h : s.next.start ≤ s.stop) :
    s.taken + s.next.remaining = s.remaining := by
  have hstart : s.next.start = s.start + s.taken := rfl
  have hstop : s.next.stop = s.stop := rfl
  have hle := hs.start_le_stop
  unfold remaining
  omega

theorem remaining_le_of_mem_run (hs : s.Valid) (ht : t ∈ s.run) : t.remaining ≤ s.remaining := by
  refine (run_induction (P := fun u => u.Valid ∧ u.remaining ≤ s.remaining) ?_ ?_ ht).2
  · rintro u ⟨hu, hle⟩ hnext
    have := hu.remaining_next hnext
    exact ⟨hu.next hnext, by omega⟩
  · exact ⟨hs, Nat.le_refl _⟩

/-- The blocks of a run take all that is left and nothing else. -/
theorem Valid.sum_taken_run (hs : s.Valid) : (s.run.map taken).sum = s.remaining := by
  fun_induction run s with
  | case1 s ih =>
    rw [List.map_cons, List.sum_cons]
    by_cases h : s.next.start ≤ s.stop
    · rw [if_pos h, ih h (hs.next h), hs.remaining_next h]
    · have hle := hs.taken_le_remaining
      have hstop := hs.start_le_stop
      have hnext : s.next.start = s.start + s.taken := rfl
      unfold remaining at *
      rw [if_neg h, List.map_nil, List.sum_nil]
      omega

/-! ## Rising -/

theorem two_mul_taken (s : Stretch) :
    2 * s.taken = Nat.pow 2 (s.family.bits - s.length + 1) :=
  Nat.mul_comm _ _

/-- While a stretch rises, no larger power of two than the next block divides its start. -/
theorem Valid.le_taken_of_rises (hs : s.Valid) (hrise : 2 * s.taken ≤ s.remaining)
    (hdvd : Nat.pow 2 k ∣ s.start) : Nat.pow 2 k ≤ s.taken := by
  by_contra hlt
  have hk : s.family.bits - s.length < k :=
    (Nat.pow_lt_pow_iff_right Nat.one_lt_two).mp (Nat.lt_of_not_le hlt)
  have htwice := s.two_mul_taken
  have hbits : s.family.bits - s.length + 1 ≤ s.family.bits := by
    have hsize : 2 * s.taken ≤ Nat.pow 2 s.family.bits := Nat.le_trans hrise hs.remaining_le
    rw [htwice] at hsize
    exact (Nat.pow_le_pow_iff_right Nat.one_lt_two).mp hsize
  have hdvd' : Nat.pow 2 (s.family.bits - s.length + 1) ∣ s.start :=
    Nat.dvd_trans (Nat.pow_dvd_pow 2 hk) hdvd
  have hle := hs.le_taken hbits hdvd' (htwice ▸ hrise)
  have hpos := s.taken_pos
  omega

theorem Valid.two_mul_taken_dvd_next (hs : s.Valid) (hrise : 2 * s.taken ≤ s.remaining) :
    2 * s.taken ∣ s.next.start := by
  have hodd : ¬ 2 * s.taken ∣ s.start := by
    intro hdvd
    have hle := hs.le_taken_of_rises hrise (s.two_mul_taken ▸ hdvd)
    have hpos := s.taken_pos
    rw [← two_mul_taken] at hle
    omega
  obtain ⟨q, hq⟩ := hs.taken_dvd_start
  have hnext : s.next.start = s.taken * (q + 1) := congrArg (· + s.taken) hq
  rw [hnext, Nat.mul_comm 2]
  rw [hq, Nat.mul_comm 2, Nat.mul_dvd_mul_iff_left s.taken_pos] at hodd
  exact Nat.mul_dvd_mul_left _ (by omega)

/-! ## Falling -/

/-- What is left after the next block is less than the block, so it bounds the block after it. -/
theorem Valid.falls_next (hs : s.Valid) (hfall : s.remaining < 2 * s.taken)
    (h : s.next.start ≤ s.stop) : s.next.remaining < 2 * s.next.taken := by
  have hnext := hs.next h
  have hleft := hs.remaining_next h
  have hle : Nat.pow 2 s.next.remaining.log2 ≤ s.next.remaining :=
    Nat.log2_self_le s.next.remaining_ne_zero
  have hlt : s.next.remaining < Nat.pow 2 s.next.remaining.log2 * 2 := Nat.lt_log2_self
  have hlog : s.next.remaining.log2 ≤ s.family.bits - s.length := by
    have : Nat.pow 2 s.next.remaining.log2 < s.taken := by omega
    exact Nat.le_of_lt ((Nat.pow_lt_pow_iff_right Nat.one_lt_two).mp this)
  have hdvd : Nat.pow 2 s.next.remaining.log2 ∣ s.taken := Nat.pow_dvd_pow 2 hlog
  have htaken := hnext.le_taken hnext.log2_remaining_le
    (Nat.dvd_add (Nat.dvd_trans hdvd hs.taken_dvd_start) hdvd) hle
  omega

theorem Valid.taken_lt_of_falls (hs : s.Valid) (hfall : s.remaining < 2 * s.taken)
    (h : s.next.start ≤ s.stop) (ht : t ∈ s.next.run) : t.taken < s.taken := by
  have hnext := hs.next h
  have hleft := hs.remaining_next h
  calc t.taken ≤ t.remaining := (hnext.of_mem_run ht).taken_le_remaining
    _ ≤ s.next.remaining := remaining_le_of_mem_run hnext ht
    _ < s.taken := by omega

theorem Valid.pairwise_of_falls (hs : s.Valid) (hfall : s.remaining < 2 * s.taken) :
    s.run.Pairwise fun t u => t.taken > u.taken := by
  fun_induction run s with
  | case1 s ih =>
    by_cases h : s.next.start ≤ s.stop
    · rw [if_pos h, List.pairwise_cons]
      exact ⟨fun t ht => hs.taken_lt_of_falls hfall h ht, ih h (hs.next h) (hs.falls_next hfall h)⟩
    · rw [if_neg h]
      exact List.pairwise_singleton _ _

/-! ## Rising and falling -/

/-- The blocks of a run become larger and then smaller. As long as they become larger, each is at
least as large as any power of two that divides the start. -/
theorem Valid.exists_run_eq_append (hs : s.Valid) : ∃ up down, s.run = up ++ down ∧
    up.Pairwise (fun t u => t.taken < u.taken) ∧ down.Pairwise (fun t u => t.taken > u.taken) ∧
      ∀ t ∈ up, ∀ k, Nat.pow 2 k ∣ s.start → Nat.pow 2 k ≤ t.taken := by
  fun_induction run s with
  | case1 s ih =>
    by_cases hfall : s.remaining < 2 * s.taken
    · have hrun := hs.pairwise_of_falls hfall
      rw [run] at hrun
      exact ⟨[], _, rfl, List.Pairwise.nil, hrun, fun t ht => absurd ht List.not_mem_nil⟩
    · have hrise : 2 * s.taken ≤ s.remaining := Nat.le_of_not_lt hfall
      have hnext : s.next.start ≤ s.stop := by
        have hpos := s.taken_pos
        have hstart : s.next.start = s.start + s.taken := rfl
        have hle := hs.start_le_stop
        unfold remaining at hrise
        omega
      obtain ⟨up, down, hrun, hup, hdown, hbelow⟩ := ih hnext (hs.next hnext)
      have hlarger : ∀ t ∈ up, s.taken < t.taken := by
        intro t ht
        have hle := hbelow t ht _ (s.two_mul_taken ▸ hs.two_mul_taken_dvd_next hrise)
        have hpos := s.taken_pos
        rw [← two_mul_taken] at hle
        omega
      refine ⟨s :: up, down, ?_, List.pairwise_cons.mpr ⟨hlarger, hup⟩, hdown, ?_⟩
      · rw [if_pos hnext, hrun, List.cons_append]
      · intro t ht k hdvd
        have hle := hs.le_taken_of_rises hrise hdvd
        rcases List.mem_cons.mp ht with rfl | ht
        · exact hle
        · exact Nat.le_trans hle (Nat.le_of_lt (hlarger t ht))

end Stretch

/-! ## Counting -/

theorem length_le_of_pairwise_gt {ks : List Nat} {n : Nat} (h : ks.Pairwise (· > ·))
    (hlt : ∀ k ∈ ks, k < n) : ks.length ≤ n := by
  induction ks generalizing n with
  | nil => exact Nat.zero_le n
  | cons k ks ih =>
    obtain ⟨hbelow, hks⟩ := List.pairwise_cons.mp h
    have hlen : ks.length ≤ k := ih hks hbelow
    exact Nat.lt_of_le_of_lt hlen (hlt k (List.mem_cons_self ..))

/-- Different powers of two have the least sum when no smaller power is left out. -/
theorem two_pow_length_le_sum {ks : List Nat} (h : ks.Pairwise (· > ·)) :
    Nat.pow 2 ks.length ≤ (ks.map (Nat.pow 2)).sum + 1 := by
  induction ks with
  | nil => exact Nat.le_refl _
  | cons k ks ih =>
    obtain ⟨hlt, hks⟩ := List.pairwise_cons.mp h
    have hlen : ks.length ≤ k := length_le_of_pairwise_gt hks hlt
    have hpow : Nat.pow 2 ks.length ≤ Nat.pow 2 k := Nat.pow_le_pow_right Nat.two_pos hlen
    have hsucc : Nat.pow 2 (ks.length + 1) = Nat.pow 2 ks.length * 2 := rfl
    have := ih hks
    rw [List.length_cons, List.map_cons, List.sum_cons]
    omega

/-- Two lists of different powers of two with a sum of at most `2 ^ n` are short. -/
theorem add_le_of_two_pow_add_le {u d n : Nat} (hn : 3 ≤ n)
    (h : Nat.pow 2 u + Nat.pow 2 d ≤ Nat.pow 2 n + 2) : u + d ≤ 2 * n - 2 := by
  -- One of the two has at most one member if the other one has more than `n - 1`.
  have hshort {a b : Nat} (ha : n ≤ a) (hab : Nat.pow 2 a + Nat.pow 2 b ≤ Nat.pow 2 n + 2) :
      a ≤ n ∧ b ≤ 1 := by
    have hpow : Nat.pow 2 n ≤ Nat.pow 2 a := Nat.pow_le_pow_right Nat.two_pos ha
    have hposb : 0 < Nat.pow 2 b := Nat.two_pow_pos b
    have hfour : Nat.pow 2 3 ≤ Nat.pow 2 n := Nat.pow_le_pow_right Nat.two_pos hn
    refine ⟨Nat.le_of_not_lt fun hlt => ?_, Nat.le_of_not_lt fun hlt => ?_⟩
    · have hdouble : Nat.pow 2 (n + 1) ≤ Nat.pow 2 a := Nat.pow_le_pow_right Nat.two_pos hlt
      have hsucc : Nat.pow 2 (n + 1) = Nat.pow 2 n * 2 := rfl
      have : Nat.pow 2 3 = 8 := rfl
      omega
    · have hquad : Nat.pow 2 2 ≤ Nat.pow 2 b := Nat.pow_le_pow_right Nat.two_pos hlt
      have : Nat.pow 2 2 = 4 := rfl
      omega
  by_cases hu : n ≤ u
  · have := hshort hu h
    omega
  · by_cases hd : n ≤ d
    · have := hshort hd (Nat.add_comm .. ▸ h)
      omega
    · omega

namespace Stretch

variable {s : Stretch} {ts : List Stretch}

theorem two_pow_length_le_sum_taken (h : ts.Pairwise fun t u => t.taken > u.taken) :
    Nat.pow 2 ts.length ≤ (ts.map taken).sum + 1 := by
  have hpow : ts.map taken = (ts.map fun t => t.family.bits - t.length).map (Nat.pow 2) := by
    rw [List.map_map]
    rfl
  have hpair : (ts.map fun t => t.family.bits - t.length).Pairwise (· > ·) :=
    List.pairwise_map.mpr (h.imp fun hgt => (Nat.pow_lt_pow_iff_right Nat.one_lt_two).mp hgt)
  have hle := two_pow_length_le_sum hpair
  rwa [List.length_map, ← hpow] at hle

theorem Valid.length_run_le (hs : s.Valid) : s.run.length ≤ 2 * s.family.bits - 2 := by
  obtain ⟨up, down, hrun, hup, hdown, -⟩ := hs.exists_run_eq_append
  have hsum := hs.sum_taken_run
  have hsize : s.remaining ≤ Nat.pow 2 s.family.bits := hs.remaining_le
  have hupsum := two_pow_length_le_sum_taken (List.pairwise_reverse.mpr hup)
  have hdownsum := two_pow_length_le_sum_taken hdown
  rw [List.length_reverse, List.map_reverse, List.sum_reverse] at hupsum
  rw [hrun, List.map_append, List.sum_append] at hsum
  rw [hrun, List.length_append]
  have hbits : 3 ≤ s.family.bits := by
    cases s.family <;> decide
  exact add_le_of_two_pow_add_le hbits (by omega)

end Stretch

namespace Range

theorem size_blocks (r : Range) (h : ¬ (r.first = 0 ∧ r.last = r.family.top)) :
    r.blocks.map Block.size = (Stretch.run ⟨r.family, r.first, r.last⟩).map Stretch.taken := by
  unfold blocks
  rw [if_neg h, List.map_map]
  rfl

/-- **Sizes of blocks.** A range has at least one block and at most two less than twice as many as
its addresses have bits. The sizes of its blocks rise strictly and then fall strictly, where the two
at the peak may be equal. -/
theorem length_blocks_and_unimodal (r : Range) :
    (1 ≤ r.blocks.length ∧ r.blocks.length ≤ 2 * r.family.bits - 2) ∧
      Unimodal (r.blocks.map Block.size) := by
  have hpos : 1 ≤ r.blocks.length := List.length_pos_iff.mpr r.blocks_ne_nil
  by_cases h : r.first = 0 ∧ r.last = r.family.top
  · have hone : r.blocks = [⟨.ofNat r.family 0, 0⟩] := if_pos h
    refine ⟨⟨hpos, ?_⟩, [], _, rfl, List.Pairwise.nil, ?_⟩
    · rw [hone]
      cases r.family <;> decide
    · rw [hone]
      exact List.pairwise_singleton _ _
  · have hs := r.valid_stretch
    have hsizes := r.size_blocks h
    have hlength := congrArg List.length hsizes
    rw [List.length_map, List.length_map] at hlength
    refine ⟨⟨hpos, hlength ▸ hs.length_run_le⟩, ?_⟩
    obtain ⟨up, down, hrun, hup, hdown, -⟩ := hs.exists_run_eq_append
    rw [hsizes, hrun, List.map_append]
    exact ⟨_, _, rfl, List.pairwise_map.mpr hup, List.pairwise_map.mpr hdown⟩

/-- All addresses but the first and the last one need as many blocks as there can be. -/
example : (spanning .v4 1 (Family.v4.top - 1)).blocks.length = 62 := by decide +kernel

end Range

end NetRanges
