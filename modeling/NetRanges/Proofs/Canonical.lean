import NetRanges.Proofs.Answers

/-!
# Compiled forms are canonical

What ranges are compiled to is a function of what they cover: covers are in normal form
(`Cover.ofRanges_congr`), and blocks, tries and compiled matchers are computed from covers.
Conversely what the ranges cover can be read back from each of these forms. So two lists of
ranges cover the same exactly when any of their forms are equal, down to the order in which
the nodes of a trie stand.
-/

namespace NetRanges

/-- In each family the ranges cover the same values. -/
def SameCoverage (rs ss : List Range) : Prop :=
  ∀ family v, Covered rs family v ↔ Covered ss family v

variable {rs ss : List Range}

/-- It is enough to compare the values of addresses, since no range goes beyond them. -/
theorem SameCoverage.of_address (h : ∀ a : Address,
    Covered rs a.family a.value ↔ Covered ss a.family a.value) : SameCoverage rs ss := by
  intro family v
  by_cases hv : v < family.size
  · exact h ⟨family, v, hv⟩
  · exact iff_of_false (fun hc => hv hc.lt_size) fun hc => hv hc.lt_size

namespace SameCoverage

/-! ## From coverage to the forms -/

theorem extents_eq (h : SameCoverage rs ss) (family : Family) :
    (Cover.ofRanges family rs).extents = (Cover.ofRanges family ss).extents := by
  apply (Cover.gapped_ofRanges family rs).eq_of_mem_iff (Cover.gapped_ofRanges family ss)
  intro v
  rw [Cover.exists_mem_extents_iff, Cover.exists_mem_extents_iff]
  exact h family v

theorem cover_eq (h : SameCoverage rs ss) (family : Family) :
    Cover.ofRanges family rs = Cover.ofRanges family ss := by
  rw [Cover.ofRanges_eq_ofExtents, h.extents_eq, ← Cover.ofRanges_eq_ofExtents]

theorem index_eq (h : SameCoverage rs ss) : IntervalIndex.ofRanges rs = .ofRanges ss := by
  unfold IntervalIndex.ofRanges
  congr 1
  exact ByFamily.ext_get h.cover_eq

theorem covering_eq (h : SameCoverage rs ss) : Block.covering rs = Block.covering ss := by
  unfold Block.covering
  rw [h.cover_eq, h.cover_eq]

/-- The same blocks come in the same order, so the nodes are laid out alike. -/
theorem trie_eq (h : SameCoverage rs ss) : BlockTrie.ofRanges rs = .ofRanges ss := by
  unfold BlockTrie.ofRanges
  congr 2
  funext family
  rw [h.cover_eq]

theorem compiled_eq (h : SameCoverage rs ss) (options : Options) :
    Compiled.ofRanges rs options = .ofRanges ss options := by
  unfold Compiled.ofRanges
  rw [h.index_eq]

end SameCoverage

/-! ## From the forms to coverage -/

namespace SameCoverage

theorem of_index_eq (h : IntervalIndex.ofRanges rs = .ofRanges ss) : SameCoverage rs ss := by
  intro family v
  rw [← IntervalIndex.covered_ranges, h, IntervalIndex.covered_ranges]

theorem of_covering_eq (h : Block.covering rs = Block.covering ss) : SameCoverage rs ss := by
  intro family v
  rw [← Block.exists_mem_covering_iff, h, Block.exists_mem_covering_iff]

theorem of_trie_eq (h : BlockTrie.ofRanges rs = .ofRanges ss) : SameCoverage rs ss := by
  apply of_address
  intro a
  rw [← BlockTrie.holds_iff, h, BlockTrie.holds_iff]

theorem of_compiled_eq {options : Options}
    (h : Compiled.ofRanges rs options = .ofRanges ss options) : SameCoverage rs ss :=
  of_index_eq (congrArg Compiled.index h)

end SameCoverage

/-- **Canonical forms.** Two lists of ranges cover the same exactly when their covers, their
tries, their blocks, or their compiled matchers for all options are equal. Whether a compiled
matcher has a trie hence depends on nothing but the options and what is covered. -/
theorem sameCoverage_iff_forms_eq (rs ss : List Range) :
    (SameCoverage rs ss ↔ IntervalIndex.ofRanges rs = IntervalIndex.ofRanges ss) ∧
      (SameCoverage rs ss ↔ BlockTrie.ofRanges rs = BlockTrie.ofRanges ss) ∧
      (SameCoverage rs ss ↔ Block.covering rs = Block.covering ss) ∧
      (SameCoverage rs ss ↔
        ∀ options, Compiled.ofRanges rs options = Compiled.ofRanges ss options) ∧
      (SameCoverage rs ss → ∀ options,
        (Compiled.ofRanges rs options).strategy = (Compiled.ofRanges ss options).strategy) := by
  refine ⟨?_, ?_, ?_, ?_, ?_⟩
  · exact ⟨SameCoverage.index_eq, SameCoverage.of_index_eq⟩
  · exact ⟨SameCoverage.trie_eq, SameCoverage.of_trie_eq⟩
  · exact ⟨SameCoverage.covering_eq, SameCoverage.of_covering_eq⟩
  · exact ⟨SameCoverage.compiled_eq, fun h => SameCoverage.of_compiled_eq (h {})⟩
  · intro h options
    rw [h.compiled_eq]

end NetRanges
