import Mathlib.Data.UInt
import NetRanges.Proofs.Partition
import NetRanges.Proofs.Words

/-!
# Cutting in words

The cut of a range, done in words of 128 bits and with lengths of eight bits. Each operation wraps
around where its result does not fit, and the loop may not end (`Loop`). All addresses of the longer
family are too many to be counted in a word, so the loop is not entered for them. For any other
range, every operation gives the number it gives without a bound (`Proper.toNat_remaining`,
`Proper.toNat_length`, `Proper.toNat_taken`), so that a pass of the loop is a step of the cut
(`Proper.next?_words`), and none of its operations wraps around (`Proper.safe_words`).
-/

namespace NetRanges

/-- The values from `start` to `stop`, both of them words, still to be cut into blocks. -/
structure WordStretch where
  family : Family
  start : Word
  stop : Word

namespace WordStretch

variable {w : WordStretch} {vs ws : List WordStretch}

def bits (w : WordStretch) : UInt8 :=
  .ofNat w.family.bits

/-- How many values are left. -/
def remaining (w : WordStretch) : Word :=
  w.stop - w.start + 1

/-- The most host bits of a block that starts at the first value. -/
def alignment (w : WordStretch) : UInt8 :=
  Word.zeros w.family.bits w.start

/-- How many leading bits the next block fixes. -/
def length (w : WordStretch) : UInt8 :=
  max (w.bits - w.alignment) (w.bits - Word.log2 w.remaining)

def hostBits (w : WordStretch) : UInt8 :=
  w.bits - w.length

/-- How many values the next block takes. A word is shifted by less than its width. -/
def taken (w : WordStretch) : Word :=
  (1 : Word) <<< (w.hostBits.toNat % 128)

def block (w : WordStretch) : Block :=
  ⟨.ofNat w.family w.start.toNat, w.length.toNat⟩

/-- What is left after the next block, unless that is nothing or no word is large enough. -/
def next? (w : WordStretch) : Option WordStretch :=
  if w.start.uaddOverflow w.taken = false ∧ w.start + w.taken ≤ w.stop then
    some { w with start := w.start + w.taken }
  else none

/-- The loop that is entered with a stretch ends, and these are the stretches of its passes. -/
inductive Loop : WordStretch → List WordStretch → Prop
  | done {w : WordStretch} : w.next? = none → Loop w [w]
  | again {w v : WordStretch} {vs : List WordStretch} :
    w.next? = some v → Loop v vs → Loop w (w :: vs)

theorem Loop.unique (hv : Loop w vs) (hw : Loop w ws) : vs = ws := by
  induction hv generalizing ws with
  | done hnone =>
    cases hw with
    | done => rfl
    | again hsome =>
      rw [hnone] at hsome
      cases hsome
  | again hsome _ ih =>
    cases hw with
    | done hnone =>
      rw [hsome] at hnone
      cases hnone
    | again hsome' htail =>
      obtain rfl := Option.some.inj (hsome.symm.trans hsome')
      rw [ih htail]

/-- The stretch has all values of its family. -/
def Whole (w : WordStretch) : Prop :=
  w.start = 0 ∧ w.stop = .ofNat 128 w.family.top

/-- The passes and the blocks of the cut of a stretch. There is no pass when all values of the
family make up one block. -/
inductive Cut (w : WordStretch) : List WordStretch → List Block → Prop
  | whole : w.Whole → Cut w [] [⟨.ofNat w.family 0, 0⟩]
  | loop {ws : List WordStretch} : ¬w.Whole → Loop w ws → Cut w ws (ws.map block)

theorem cut_iff_of_whole {bs : List Block} (h : w.Whole) :
    w.Cut vs bs ↔ vs = [] ∧ bs = [⟨.ofNat w.family 0, 0⟩] := by
  constructor
  · intro hcut
    cases hcut with
    | whole => exact ⟨rfl, rfl⟩
    | loop hnot => exact absurd h hnot
  · rintro ⟨rfl, rfl⟩
    exact .whole h

theorem cut_iff_of_loop {bs : List Block} (h : ¬w.Whole) (hw : w.Loop ws) :
    w.Cut vs bs ↔ vs = ws ∧ bs = ws.map block := by
  constructor
  · intro hcut
    cases hcut with
    | whole hwhole => exact absurd hwhole h
    | loop _ hv =>
      obtain rfl := hv.unique hw
      exact ⟨rfl, rfl⟩
  · rintro ⟨rfl, rfl⟩
    exact .loop h hw

/-- In a pass of the loop, no operation leaves the numbers of its type: the ends are in order, their
distance can be increased, a logarithm is not taken of zero, no subtraction goes below zero, the
length of the block is at least one and fits the family, the shift stays below the width of a word,
and the start of the block is an address of the family. -/
structure Safe (w : WordStretch) : Prop where
  start_le_stop : w.start ≤ w.stop
  remaining_fits : (w.stop - w.start).uaddOverflow 1 = false
  one_le_remaining : 1 ≤ w.remaining
  alignment_le : w.alignment ≤ w.bits
  log2_le : Word.log2 w.remaining ≤ w.bits
  one_le_length : 1 ≤ w.length
  length_le : w.length ≤ w.bits
  hostBits_lt : w.hostBits < 128
  start_lt : w.start.toNat < w.family.size

end WordStretch

namespace Stretch

variable {s : Stretch}

/-- The stretch with its ends as words. -/
def words (s : Stretch) : WordStretch :=
  ⟨s.family, .ofNat 128 s.start, .ofNat 128 s.stop⟩

theorem Valid.toNat_start (hs : s.Valid) : s.words.start.toNat = s.start :=
  Word.toNat_ofNat (Nat.lt_of_lt_of_le hs.start_lt s.family.size_le_pow)

theorem Valid.toNat_stop (hs : s.Valid) : s.words.stop.toNat = s.stop :=
  Word.toNat_ofNat (Nat.lt_of_lt_of_le hs.stop_lt s.family.size_le_pow)

theorem toNat_bits (s : Stretch) : s.words.bits.toNat = s.family.bits :=
  UInt8.toNat_ofNat_of_lt' (Nat.lt_of_le_of_lt s.family.bits_le (by decide))

theorem Valid.start_le_stop_words (hs : s.Valid) : s.words.start ≤ s.words.stop := by
  rw [BitVec.le_def, hs.toNat_start, hs.toNat_stop]
  exact hs.start_le_stop

theorem Valid.toNat_stop_sub_start (hs : s.Valid) :
    (s.words.stop - s.words.start).toNat = s.stop - s.start := by
  rw [BitVec.toNat_sub_of_le hs.start_le_stop_words, hs.toNat_start, hs.toNat_stop]

theorem Valid.toNat_alignment (hs : s.Valid) : s.words.alignment.toNat = s.alignment := by
  show (Word.zeros s.family.bits s.words.start).toNat = s.alignment
  rw [Word.toNat_zeros s.family.bits_le, hs.toNat_start]
  rfl

/-! ## Stretches that are not the whole family -/

/-- The values left are in order and fit the family, and they are not all of its values. -/
structure Proper (s : Stretch) : Prop extends Valid s where
  remaining_lt : s.remaining < s.family.size

theorem Proper.next (hs : s.Proper) (h : s.next.start ≤ s.stop) : s.next.Proper where
  toValid := hs.toValid.next h
  remaining_lt := by
    have hle : s.next.remaining ≤ s.remaining :=
      Nat.succ_le_succ (Nat.sub_le_sub_left (Nat.le_add_right ..) _)
    exact Nat.lt_of_le_of_lt hle hs.remaining_lt

theorem Proper.not_whole (hs : s.Proper) : ¬s.words.Whole := by
  rintro ⟨hstart, hstop⟩
  have hfirst : s.start = 0 := by
    rw [← hs.toNat_start, hstart]
    rfl
  have hlast : s.stop = s.family.top := by
    have htop : s.family.top < Nat.pow 2 128 :=
      Nat.lt_of_lt_of_le (Family.lt_size_iff.mpr (Nat.le_refl _)) s.family.size_le_pow
    rw [← hs.toNat_stop, hstop]
    exact Word.toNat_ofNat htop
  have hlt := hs.remaining_lt
  have hpos := s.family.size_pos
  rw [remaining, hfirst, hlast, Family.top] at hlt
  omega

theorem Proper.remaining_fits (hs : s.Proper) :
    (s.words.stop - s.words.start).uaddOverflow 1 = false := by
  rw [Word.uaddOverflow_eq_false_iff, hs.toNat_stop_sub_start, Word.toNat_one]
  exact Nat.lt_of_lt_of_le hs.remaining_lt s.family.size_le_pow

theorem Proper.toNat_remaining (hs : s.Proper) : s.words.remaining.toNat = s.remaining := by
  rw [WordStretch.remaining, Word.toNat_add hs.remaining_fits, hs.toNat_stop_sub_start,
    Word.toNat_one, remaining]

/-- All addresses of the longer family are one more than a word can count. -/
example : (Stretch.mk .v6 0 Family.v6.top).words.remaining = 0 := by
  decide +kernel

theorem Proper.remaining_ne_zero_words (hs : s.Proper) : s.words.remaining ≠ 0 := by
  intro hzero
  have h := hs.toNat_remaining
  rw [hzero] at h
  exact s.remaining_ne_zero h.symm

theorem Proper.toNat_log2 (hs : s.Proper) :
    (Word.log2 s.words.remaining).toNat = s.remaining.log2 := by
  rw [Word.toNat_log2 hs.remaining_ne_zero_words, hs.toNat_remaining]

theorem Proper.alignment_le (hs : s.Proper) : s.words.alignment ≤ s.words.bits := by
  rw [UInt8.le_iff_toNat_le, hs.toNat_alignment, toNat_bits]
  exact twos_le ..

theorem Proper.log2_le (hs : s.Proper) : Word.log2 s.words.remaining ≤ s.words.bits := by
  rw [UInt8.le_iff_toNat_le, hs.toNat_log2, toNat_bits]
  exact hs.log2_remaining_le

theorem Proper.toNat_length (hs : s.Proper) : s.words.length.toNat = s.length := by
  rw [WordStretch.length, UInt8.toNat_max, UInt8.toNat_sub_of_le _ _ hs.alignment_le,
    UInt8.toNat_sub_of_le _ _ hs.log2_le, toNat_bits, hs.toNat_alignment, hs.toNat_log2]
  rfl

theorem Proper.length_le_words (hs : s.Proper) : s.words.length ≤ s.words.bits := by
  rw [UInt8.le_iff_toNat_le, hs.toNat_length, toNat_bits]
  exact s.length_le

theorem Proper.toNat_hostBits (hs : s.Proper) :
    s.words.hostBits.toNat = s.family.bits - s.length := by
  rw [WordStretch.hostBits, UInt8.toNat_sub_of_le _ _ hs.length_le_words, toNat_bits,
    hs.toNat_length]

/-- A block that does not take all values of the family fixes at least one bit. -/
theorem Proper.one_le_length (hs : s.Proper) : 1 ≤ s.length := by
  have hlog : s.remaining.log2 < s.family.bits :=
    (Nat.log2_lt s.remaining_ne_zero).mpr hs.remaining_lt
  unfold length
  omega

theorem Proper.hostBits_lt (hs : s.Proper) : s.family.bits - s.length < 128 := by
  have hbits := s.family.bits_le
  have hpos := hs.one_le_length
  have hle := s.length_le
  omega

theorem Proper.toNat_taken (hs : s.Proper) : s.words.taken.toNat = s.taken := by
  have hlt := hs.hostBits_lt
  rw [WordStretch.taken, hs.toNat_hostBits, Nat.mod_eq_of_lt hlt, Word.toNat_one_shiftLeft hlt]
  rfl

theorem Proper.block_words (hs : s.Proper) : s.words.block = s.block := by
  unfold WordStretch.block
  rw [hs.toNat_start, hs.toNat_length]
  rfl

/-! ## Passes of the loop -/

/-- No operation of a pass wraps around. -/
theorem Proper.safe_words (hs : s.Proper) : s.words.Safe where
  start_le_stop := hs.start_le_stop_words
  remaining_fits := hs.remaining_fits
  one_le_remaining := by
    rw [BitVec.le_def, hs.toNat_remaining]
    exact Nat.succ_pos _
  alignment_le := hs.alignment_le
  log2_le := hs.log2_le
  one_le_length := by
    rw [UInt8.le_iff_toNat_le, hs.toNat_length]
    exact hs.one_le_length
  length_le := hs.length_le_words
  hostBits_lt := by
    rw [UInt8.lt_iff_toNat_lt, hs.toNat_hostBits]
    exact hs.hostBits_lt
  start_lt := by
    rw [hs.toNat_start]
    exact hs.start_lt

/-- A pass of the loop leaves what a step of the cut leaves. -/
theorem Proper.next?_words (hs : s.Proper) :
    s.words.next? = if s.next.start ≤ s.stop then some s.next.words else none := by
  have hsum : s.words.start.toNat + s.words.taken.toNat = s.next.start := by
    rw [hs.toNat_start, hs.toNat_taken]
    rfl
  by_cases h : s.next.start ≤ s.stop
  · have hstart : s.words.start + s.words.taken = s.next.words.start := by
      apply BitVec.eq_of_toNat_eq
      rw [BitVec.toNat_add, hsum]
      rfl
    have hfits : s.words.start.uaddOverflow s.words.taken = false := by
      rw [Word.uaddOverflow_eq_false_iff, hsum]
      exact Nat.lt_of_lt_of_le (hs.next h).start_lt s.family.size_le_pow
    have hle : s.words.start + s.words.taken ≤ s.words.stop := by
      rw [hstart]
      exact (hs.next h).start_le_stop_words
    rw [if_pos h, WordStretch.next?, if_pos ⟨hfits, hle⟩, hstart]
    rfl
  · rw [if_neg h, WordStretch.next?, if_neg]
    rintro ⟨hfits, hle⟩
    rw [BitVec.le_def, Word.toNat_add hfits, hsum, hs.toNat_stop] at hle
    exact h hle

/-- The loop ends, and its passes are the steps of the cut. -/
theorem Proper.loop (hs : s.Proper) : s.words.Loop (s.run.map words) := by
  fun_induction run s with
  | case1 s ih =>
    have hnext := hs.next?_words
    rw [List.map_cons]
    by_cases h : s.next.start ≤ s.stop
    · rw [if_pos h] at hnext
      rw [if_pos h]
      exact .again hnext (ih h (hs.next h))
    · rw [if_neg h] at hnext
      rw [if_neg h]
      exact .done hnext

theorem Proper.of_mem_run {t : Stretch} (hs : s.Proper) (h : t ∈ s.run) : t.Proper :=
  run_induction (fun _ hu hle => hu.next hle) hs h

theorem Proper.pairwise_start (hs : s.Proper) :
    (s.run.map words).Pairwise fun v w => v.start < w.start := by
  rw [List.pairwise_map]
  refine s.pairwise_run.imp_of_mem fun {t u} ht hu hle => ?_
  have hpos := t.taken_pos
  rw [BitVec.lt_def, (hs.of_mem_run ht).toNat_start, (hs.of_mem_run hu).toNat_start]
  omega

end Stretch

namespace Range

variable {r : Range}

/-- The range with its ends as words. -/
def words (r : Range) : WordStretch :=
  (Stretch.mk r.family r.first r.last).words

theorem proper_stretch (h : ¬(r.first = 0 ∧ r.last = r.family.top)) :
    (Stretch.mk r.family r.first r.last).Proper where
  toValid := r.valid_stretch
  remaining_lt := by
    have hle := r.first_le_last
    have hlast : r.last ≤ r.family.top := Family.lt_size_iff.mp r.last_lt
    have hpos := r.family.size_pos
    unfold Family.top at *
    show r.last - r.first + 1 < r.family.size
    omega

theorem whole_words (h : r.first = 0 ∧ r.last = r.family.top) : r.words.Whole := by
  rw [words, h.1, h.2]
  exact ⟨rfl, rfl⟩

/-- **The cut in words.** The cut of a range in words ends, in one way only and with the blocks of
the range. No operation of any pass wraps around, and the start becomes larger from pass to pass. -/
theorem cut_in_words (r : Range) :
    ∃ ws, (∀ vs bs, r.words.Cut vs bs ↔ vs = ws ∧ bs = r.blocks) ∧
      (∀ w ∈ ws, w.Safe) ∧ ws.Pairwise fun v w => v.start < w.start := by
  by_cases h : r.first = 0 ∧ r.last = r.family.top
  · have hblocks : r.blocks = [⟨.ofNat r.family 0, 0⟩] := by rw [blocks, if_pos h]
    refine ⟨[], fun vs bs => ?_, fun w hw => absurd hw List.not_mem_nil, List.Pairwise.nil⟩
    rw [hblocks]
    exact WordStretch.cut_iff_of_whole (whole_words h)
  · have hs := proper_stretch h
    have hblocks : r.blocks =
        ((Stretch.run ⟨r.family, r.first, r.last⟩).map Stretch.words).map WordStretch.block := by
      rw [blocks, if_neg h, List.map_map]
      exact List.map_congr_left fun t ht => (hs.of_mem_run ht).block_words.symm
    refine ⟨_, fun vs bs => ?_, fun w hw => ?_, hs.pairwise_start⟩
    · rw [hblocks]
      exact WordStretch.cut_iff_of_loop hs.not_whole hs.loop
    · obtain ⟨t, ht, rfl⟩ := List.mem_map.mp hw
      exact (hs.of_mem_run ht).safe_words

end Range

end NetRanges
