import NetRanges.Proofs.Cutting

/-!
# Blocks as a partition

The blocks of ranges come one after the other, and no address lies in two of them. Within a run
each block ends before the next stretch starts (`Stretch.pairwise_run`), and the blocks of a
range stay inside it (`Range.within_of_mem_blocks`), so the gaps of a cover keep the blocks of
its ranges apart (`Cover.pairwise_before`). Every block has its host bits cleared, since a run
cuts at multiples of the size of the block (`Stretch.Valid.network_block`).
-/

namespace NetRanges

namespace Range

/-- Asked without a flag, a range has the addresses of its family between its ends. -/
theorem contains_iff {r : Range} {a : Address} :
    r.contains a false = true ↔ r.family = a.family ∧ a.value ∈ r.toExtent := by
  unfold contains
  by_cases h : a.family = r.family
  · rw [if_pos h, decide_eq_true_iff]
    exact ⟨fun hv => ⟨h.symm, hv⟩, fun hv => hv.2⟩
  · rw [if_neg h]
    exact ⟨nofun, fun hv => absurd hv.1.symm h⟩

theorem exists_contains_iff {rs : List Range} {a : Address} :
    (∃ r ∈ rs, r.contains a false = true) ↔ Covered rs a.family a.value := by
  simp only [contains_iff, Covered]

end Range

namespace Block

variable {b c : Block}

theorem contains_range_iff {a : Address} :
    b.range.contains a false = true ↔ b.family = a.family ∧ a.value ∈ b.extent := by
  rw [Range.contains_iff, toExtent_range]
  rfl

theorem extent_first_lt (b : Block) : b.extent.first < b.family.size :=
  Nat.lt_of_le_of_lt b.extent_first_le b.extent_last_lt

theorem extent_last_succ (b : Block) : b.extent.last + 1 = b.extent.first + b.size := by
  have hpos := b.size_pos
  show b.extent.first + (b.size - 1) + 1 = b.extent.first + b.size
  omega

/-- The family of `c` is a later one, or the same and `c` starts after the end of `b`. -/
def Before (b c : Block) : Prop :=
  b.family.version < c.family.version ∨ b.family = c.family ∧ b.range.last < c.range.first

theorem before_of_extent (hfam : b.family = c.family) (h : b.extent.last < c.extent.first) :
    Before b c := by
  refine Or.inr ⟨hfam, ?_⟩
  show b.range.toExtent.last < c.range.toExtent.first
  rwa [toExtent_range, toExtent_range]

/-- A block that starts with its own address has no host bits to clear. -/
theorem network_eq_self (h : b.extent.first = b.address.value) : b.network = b := by
  obtain ⟨a, length⟩ := b
  have haddress : Address.ofNat a.family (Block.mk a length).extent.first = a := by
    rw [h, Address.ofNat_value]
  show Block.mk (Address.ofNat a.family (Block.mk a length).extent.first) length = ⟨a, length⟩
  rw [haddress]

end Block

/-! ## The blocks of a range -/

namespace Stretch

variable {s t : Stretch}

theorem Valid.of_mem_run (hs : s.Valid) (h : t ∈ s.run) : t.Valid :=
  run_induction (fun _ hu hle => hu.next hle) hs h

theorem start_le_of_mem_run (h : t ∈ s.run) : s.start ≤ t.start :=
  run_induction (P := fun u => s.start ≤ u.start) (fun _ hu _ => Nat.le_add_right_of_le hu)
    (Nat.le_refl _) h

/-- Each stretch of a run starts where the blocks before it have ended. -/
theorem pairwise_run (s : Stretch) :
    s.run.Pairwise fun t u => t.start + t.taken ≤ u.start := by
  fun_induction run s with
  | case1 s ih =>
    by_cases h : s.next.start ≤ s.stop
    · rw [if_pos h]
      exact List.pairwise_cons.mpr ⟨fun u hu => start_le_of_mem_run hu, ih h⟩
    · rw [if_neg h]
      exact List.pairwise_singleton _ _

theorem Valid.network_block (hs : s.Valid) : s.block.network = s.block := by
  apply Block.network_eq_self
  have hvalue : s.block.address.value = s.start := Address.value_ofNat hs.start_lt
  rw [hs.extent_block, hvalue]

end Stretch

namespace Range

variable {r : Range} {b : Block}

theorem network_of_mem_blocks (h : b ∈ r.blocks) : b.network = b := by
  unfold blocks at h
  split at h
  · rw [List.mem_singleton.mp h]
    apply Block.network_eq_self
    rw [extent_whole]
    exact (Nat.zero_mod _).symm
  · obtain ⟨t, ht, rfl⟩ := List.mem_map.mp h
    exact (r.valid_stretch.of_mem_run ht).network_block

/-- The blocks of a range do not reach beyond its ends. -/
theorem within_of_mem_blocks (h : b ∈ r.blocks) :
    r.first ≤ b.extent.first ∧ b.extent.last ≤ r.last := by
  have hle := b.extent_first_le
  have hfirst := (r.exists_mem_blocks_iff _).mp ⟨b, h, Nat.le_refl _, hle⟩
  have hlast := (r.exists_mem_blocks_iff _).mp ⟨b, h, hle, Nat.le_refl _⟩
  exact ⟨hfirst.1, hlast.2⟩

theorem pairwise_blocks (r : Range) :
    r.blocks.Pairwise fun b c => b.extent.last < c.extent.first := by
  unfold blocks
  split
  · exact List.pairwise_singleton _ _
  · rw [List.pairwise_map]
    refine (Stretch.pairwise_run _).imp_of_mem fun {t u} ht hu hle => ?_
    have hpos := t.taken_pos
    rw [(r.valid_stretch.of_mem_run ht).extent_block, (r.valid_stretch.of_mem_run hu).extent_block]
    show t.start + (t.taken - 1) < u.start
    omega

theorem pairwise_before (r : Range) : r.blocks.Pairwise Block.Before := by
  refine r.pairwise_blocks.imp_of_mem fun hb hc hlt => ?_
  exact Block.before_of_extent ((family_of_mem_blocks hb).trans (family_of_mem_blocks hc).symm) hlt

end Range

/-! ## The blocks of a cover -/

namespace Cover

variable {family : Family} {rs : List Range}

theorem network_of_mem_blocks {b : Block} (h : b ∈ (ofRanges family rs).blocks) :
    b.network = b := by
  obtain ⟨r, -, hb⟩ := List.mem_flatMap.mp h
  exact Range.network_of_mem_blocks hb

theorem pairwise_ranges (family : Family) (rs : List Range) :
    (ofRanges family rs).ranges.Pairwise fun r s => r.last < s.first := by
  have hgapped := gapped_ofRanges family rs
  unfold ranges
  rw [List.pairwise_map]
  refine hgapped.gap.imp_of_mem fun {d e} hd he hgap => ?_
  have hspan {f : Extent} (hf : f ∈ (ofRanges family rs).extents) :
      (Range.spanning (ofRanges family rs).family f.first f.last).toExtent = f := by
    rw [ofRanges_eq, family_ofExtents]
    exact Range.toExtent_spanning (hgapped.first_le_last f hf) (last_lt_of_mem family rs hf)
  rw [hspan hd, hspan he]
  omega

theorem pairwise_before (family : Family) (rs : List Range) :
    (ofRanges family rs).blocks.Pairwise Block.Before := by
  unfold blocks
  rw [List.pairwise_flatMap]
  refine ⟨fun r _ => r.pairwise_before, (pairwise_ranges family rs).imp_of_mem ?_⟩
  intro r s hr hs hlt b hb c hc
  have hfam : b.family = c.family := by
    rw [Range.family_of_mem_blocks hb, Range.family_of_mem_blocks hc, (mem_ranges.mp hr).1,
      (mem_ranges.mp hs).1]
  have hblast := (Range.within_of_mem_blocks hb).2
  have hcfirst := (Range.within_of_mem_blocks hc).1
  exact Block.before_of_extent hfam (by omega)

end Cover

namespace Block

theorem pairwise_covering (rs : List Range) : (covering rs).Pairwise Before := by
  unfold covering
  rw [List.pairwise_append]
  refine ⟨Cover.pairwise_before .v4 rs, Cover.pairwise_before .v6 rs, fun b hb c hc => Or.inl ?_⟩
  rw [Cover.family_of_mem_blocks hb, Cover.family_of_mem_blocks hc]
  decide

/-- An address lies in one of the blocks exactly when it lies in one of the ranges. -/
theorem exists_contains_covering_iff {rs : List Range} {a : Address} :
    (∃ b ∈ covering rs, b.range.contains a false = true) ↔
      ∃ r ∈ rs, r.contains a false = true := by
  rw [Range.exists_contains_iff, ← exists_mem_covering_iff]
  simp only [contains_range_iff]

/-- **Partition.** The blocks of ranges are no longer than their family is wide and have their
host bits cleared, they come in ascending order with no address in two of them, the shorter
family first, and their addresses are those of the ranges. -/
theorem covering_partition (rs : List Range) :
    (∀ b ∈ covering rs, b.length ≤ b.family.bits ∧ b.network = b) ∧
      (covering rs).Pairwise Before ∧
      ∀ a : Address, (∃ b ∈ covering rs, b.range.contains a false = true) ↔
        ∃ r ∈ rs, r.contains a false = true := by
  refine ⟨fun b hb => ?_, pairwise_covering rs, fun a => exists_contains_covering_iff⟩
  have hmem := mem_covering.mp hb
  exact ⟨Cover.length_le_of_mem_blocks hmem, Cover.network_of_mem_blocks hmem⟩

end Block

end NetRanges
