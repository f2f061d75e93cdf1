import NetRanges.Matcher.Compiled
import NetRanges.Proofs.Cutting
import NetRanges.Proofs.Paths
import NetRanges.Proofs.Scans
import NetRanges.Proofs.Tries
import NetRanges.RangeSet

/-!
# The answers of the matchers

Every matcher gives the answer of `heldBy`, which asks each range. Each of them finds out in
its own way that a family is absent: a cover has no extents, a scan has none left after
sorting, a trie has stored no block; all three mean that nothing is covered. A batch of
addresses is answered as the single questions are, whether the matcher asks them one after the
other, sweeps along its extents, or looks up a single address by trie.
-/

namespace NetRanges

variable {family : Family} {rs : List Range} {a : Address} {foreign : Bool}

namespace Cover

theorem isEmpty_ofRanges :
    (ofRanges family rs).isEmpty = (ofRanges family rs).extents.isEmpty := by
  rw [ofRanges_eq_ofExtents, extents_ofExtents]
  unfold isEmpty
  rw [starts_ofExtents]
  cases (ofRanges family rs).extents <;> rfl

theorem extents_eq_nil_iff :
    (ofRanges family rs).extents = [] ↔ ¬ ∃ v, Covered rs family v := by
  refine eq_nil_iff_not_covered ?_ fun v => exists_mem_extents_iff family rs
  intro e he
  exact ⟨e.first, Nat.le_refl _, (gapped_ofRanges family rs).first_le_last e he⟩

theorem isEmpty_iff : (ofRanges family rs).isEmpty = true ↔ ¬ ∃ v, Covered rs family v := by
  rw [isEmpty_ofRanges, List.isEmpty_iff, extents_eq_nil_iff]

theorem blocks_eq_nil_iff :
    (ofRanges family rs).blocks = [] ↔ ¬ ∃ v, Covered rs family v := by
  refine eq_nil_iff_not_covered ?_ fun v => exists_mem_blocks_iff
  intro b hb
  exact ⟨b.address.value, Block.mem_extent_iff.mpr rfl⟩

end Cover

/-! ## Single addresses -/

namespace IntervalIndex

theorem contains_ofRanges : contains (ofRanges rs) a foreign = heldBy rs a foreign :=
  ite_eq_heldBy Cover.isEmpty_iff (Cover.holds_iff_covered a.family rs)

/-- The ranges that an index gives back cover what those it was made of do. -/
theorem covered_ranges {v : Nat} :
    Covered (ofRanges rs).ranges family v ↔ Covered rs family v := by
  show Covered ((Cover.ofRanges .v4 rs).ranges ++ (Cover.ofRanges .v6 rs).ranges) family v ↔ _
  rw [covered_append, Cover.covered_ranges, Cover.covered_ranges, ← or_and_right]
  apply and_iff_right
  cases family
  · exact Or.inl rfl
  · exact Or.inr rfl

end IntervalIndex

namespace ScanList

theorem exists_mem_extents {v : Nat} :
    (∃ e ∈ (ofRanges rs).extents.get family, v ∈ e) ↔ Covered rs family v := by
  simp only [mem_extents]
  exact Cover.exists_mem_extentsOf

theorem isEmpty_iff :
    ((ofRanges rs).extents.get family).isEmpty = true ↔ ¬ ∃ v, Covered rs family v := by
  rw [List.isEmpty_iff]
  refine eq_nil_iff_not_covered ?_ fun v => exists_mem_extents
  intro e he
  obtain ⟨r, -, -, rfl⟩ := Cover.mem_extentsOf.mp (mem_extents.mp he)
  exact ⟨r.first, Nat.le_refl _, r.first_le_last⟩

theorem scan_iff_covered :
    scan a.value ((ofRanges rs).extents.get a.family) = true ↔ Covered rs a.family a.value := by
  rw [scan_iff ascending_extents, exists_mem_extents]

theorem contains_ofRanges : contains (ofRanges rs) a foreign = heldBy rs a foreign :=
  ite_eq_heldBy isEmpty_iff scan_iff_covered

end ScanList

namespace BlockTrie

theorem tries_ofRanges : (ofRanges rs).tries.get family =
    .ofPaths ((Cover.ofRanges family rs).blocks.map Block.path) :=
  ByFamily.get_ofFn _ _

theorem stored_eq_zero_iff :
    ((ofRanges rs).tries.get family).stored = 0 ↔ ¬ ∃ v, Covered rs family v := by
  rw [tries_ofRanges, BitTrie.stored_ofPaths_eq_zero_iff, List.map_eq_nil_iff,
    Cover.blocks_eq_nil_iff]

theorem holds_iff :
    ((ofRanges rs).tries.get a.family).holds a.path = true ↔ Covered rs a.family a.value := by
  have hpath {b : Block} (hb : b ∈ (Cover.ofRanges a.family rs).blocks) :
      b.path <+: a.path ↔ a.value ∈ b.extent :=
    Block.path_isPrefix_iff (Cover.family_of_mem_blocks hb).symm (Cover.length_le_of_mem_blocks hb)
  rw [tries_ofRanges, BitTrie.holds_ofPaths_iff, ← Cover.exists_mem_blocks_iff]
  constructor
  · rintro ⟨path, hmem, hpre⟩
    obtain ⟨b, hb, rfl⟩ := List.mem_map.mp hmem
    exact ⟨b, hb, (hpath hb).mp hpre⟩
  · rintro ⟨b, hb, hv⟩
    exact ⟨b.path, List.mem_map_of_mem hb, (hpath hb).mpr hv⟩

theorem contains_ofRanges : contains (ofRanges rs) a foreign = heldBy rs a foreign :=
  ite_eq_heldBy stored_eq_zero_iff holds_iff

end BlockTrie

namespace Compiled

/-- Whatever the options choose, the answer is the same. -/
theorem contains_ofRanges (options : Options) :
    contains (ofRanges rs options) a foreign = heldBy rs a foreign := by
  show (ofRanges rs options).holds a foreign = _
  unfold ofRanges holds
  split
  · rename_i trie htrie
    -- The trie is made of the ranges that the index gives back.
    obtain ⟨-, rfl⟩ := Option.ite_some_none_eq_some.mp htrie
    rw [BlockTrie.contains_ofRanges]
    exact heldBy_congr foreign fun v => IntervalIndex.covered_ranges
  · exact IntervalIndex.contains_ofRanges

end Compiled

namespace RangeSet

theorem mem_ranges {options : Options} {r : Range} :
    r ∈ (ofRanges rs options).ranges ↔ r ∈ rs := by
  show r ∈ (Range.sort rs).eraseReps ↔ r ∈ rs
  rw [mem_eraseReps, (Range.sort_perm rs).mem_iff]

theorem contains_ofRanges (options : Options) :
    contains (ofRanges rs options) a foreign = heldBy rs a foreign := by
  show contains (Compiled.ofRanges (ofRanges rs options).ranges options) a foreign = _
  rw [Compiled.contains_ofRanges]
  exact heldBy_congr foreign fun v => covered_congr_mem fun r => mem_ranges

end RangeSet

/-- **One answer.** All matchers answer as if they had asked every range. -/
theorem contains_eq_heldBy (rs : List Range) (options : Options) (a : Address) (foreign : Bool) :
    contains (IntervalIndex.ofRanges rs) a foreign = heldBy rs a foreign ∧
      contains (ScanList.ofRanges rs) a foreign = heldBy rs a foreign ∧
      contains (BlockTrie.ofRanges rs) a foreign = heldBy rs a foreign ∧
      contains (Compiled.ofRanges rs options) a foreign = heldBy rs a foreign ∧
      contains (RangeSet.ofRanges rs options) a foreign = heldBy rs a foreign :=
  ⟨IntervalIndex.contains_ofRanges, ScanList.contains_ofRanges, BlockTrie.contains_ofRanges,
    Compiled.contains_ofRanges options, RangeSet.contains_ofRanges options⟩

/-! ## Batches of addresses -/

theorem IntervalIndex.containsAnySorted_ofRanges (rs : List Range) (as : List Address)
    (foreign : Bool) : (ofRanges rs).containsAnySorted as foreign =
      as.any fun a => contains (ofRanges rs) a foreign := by
  show _ = as.any fun a => if (Cover.ofRanges a.family rs).isEmpty then foreign
    else (Cover.ofRanges a.family rs).holds a.value
  simp only [Cover.isEmpty_ofRanges]
  apply Sweep.any_anyOf as foreign fun f => (Cover.gapped_ofRanges f rs).ascending
  intro a
  rw [Cover.holds_iff_covered, Cover.exists_mem_extents_iff]

theorem ScanList.containsAny_ofRanges (rs : List Range) (as : List Address) (foreign : Bool) :
    containsAny (ofRanges rs) as foreign = as.any fun a => contains (ofRanges rs) a foreign :=
  Sweep.any_anyOf as foreign (fun _ => ascending_extents) fun a => scan_iff ascending_extents a.value

/-- One address is looked up by the chosen strategy and more are swept for, so both have to give
the same answers. -/
theorem Compiled.containsAny_ofRanges (rs : List Range) (options : Options) (as : List Address)
    (foreign : Bool) : containsAny (ofRanges rs options) as foreign =
      as.any fun a => contains (ofRanges rs options) a foreign := by
  match as with
  | [] => rfl
  | [a] => exact (Bool.or_false _).symm
  | a :: b :: as =>
    show (IntervalIndex.ofRanges rs).containsAnySorted (a :: b :: as) foreign = _
    rw [IntervalIndex.containsAnySorted_ofRanges]
    simp only [IntervalIndex.contains_ofRanges, Compiled.contains_ofRanges]

/-- A batch of addresses is answered as the addresses are one by one. In particular an address
of a family without ranges counts as the flag says, and an empty batch holds nothing. -/
structure AnswersBatches (rs : List Range) (single : Address → Bool → Bool)
    (batch : List Address → Bool → Bool) : Prop where
  eq_any : ∀ as foreign, batch as foreign = as.any fun a => single a foreign
  of_absent : ∀ as, (∃ a ∈ as, ∀ r ∈ rs, r.family ≠ a.family) → batch as true = true
  nil : ∀ foreign, batch [] foreign = false

theorem AnswersBatches.of_eq_any {single : Address → Bool → Bool}
    {batch : List Address → Bool → Bool}
    (hsingle : ∀ a foreign, single a foreign = heldBy rs a foreign)
    (h : ∀ as foreign, batch as foreign = as.any fun a => single a foreign) :
    AnswersBatches rs single batch where
  eq_any := h
  of_absent as := by
    rintro ⟨a, ha, habsent⟩
    rw [h, List.any_eq_true]
    refine ⟨a, ha, ?_⟩
    rw [hsingle]
    exact if_neg fun ⟨r, hr, hfam⟩ => habsent r hr hfam
  nil foreign := h [] foreign

/-- **Batches.** All matchers answer a batch as the disjunction of its single questions. -/
theorem containsAny_answersBatches (rs : List Range) (options : Options) :
    AnswersBatches rs (contains (IntervalIndex.ofRanges rs))
        (containsAny (IntervalIndex.ofRanges rs)) ∧
      AnswersBatches rs (contains (IntervalIndex.ofRanges rs))
        (IntervalIndex.ofRanges rs).containsAnySorted ∧
      AnswersBatches rs (contains (ScanList.ofRanges rs)) (containsAny (ScanList.ofRanges rs)) ∧
      AnswersBatches rs (contains (BlockTrie.ofRanges rs)) (containsAny (BlockTrie.ofRanges rs)) ∧
      AnswersBatches rs (contains (Compiled.ofRanges rs options))
        (containsAny (Compiled.ofRanges rs options)) ∧
      AnswersBatches rs (contains (RangeSet.ofRanges rs options))
        (containsAny (RangeSet.ofRanges rs options)) := by
  refine ⟨?_, ?_, ?_, ?_, ?_, ?_⟩
  · exact .of_eq_any (fun a foreign => IntervalIndex.contains_ofRanges) fun as foreign => rfl
  · exact .of_eq_any (fun a foreign => IntervalIndex.contains_ofRanges)
      (IntervalIndex.containsAnySorted_ofRanges rs)
  · exact .of_eq_any (fun a foreign => ScanList.contains_ofRanges)
      (ScanList.containsAny_ofRanges rs)
  · exact .of_eq_any (fun a foreign => BlockTrie.contains_ofRanges) fun as foreign => rfl
  · exact .of_eq_any (fun a foreign => Compiled.contains_ofRanges options)
      (Compiled.containsAny_ofRanges rs options)
  · exact .of_eq_any (fun a foreign => RangeSet.contains_ofRanges options)
      (Compiled.containsAny_ofRanges (RangeSet.ofRanges rs options).ranges options)

end NetRanges
