import NetRanges.Proofs.Answers
import NetRanges.Proofs.Partition
import NetRanges.Proofs.WordTries

/-!
# Any history of insertions

In whatever order blocks are stored in a trie, shorter ones after longer ones and equal ones more
than once, each node but the root has exactly one parent, which stands before it (`tree_ofPaths`).
So a descent ends, and it finds a stored block exactly when there is one that the address agrees
with on the bits the block fixes (`Block.path_isPrefix_iff_fixes`). An insertion is counted unless a
shorter block comes in its way. The blocks of ranges have no address in common, so none of them
is in the way of another one and all are counted (`BlockTrie.blocks_ofRanges`).
-/

namespace NetRanges

namespace BitTrie

/-- Children stand behind their parents, and each node but the root is the child of exactly one
node, for exactly one bit. -/
structure Tree (nodes : Array TrieNode) : Prop where
  later : ∀ i bit next, childAt nodes i bit = some next → i < next ∧ next < nodes.size
  parent : ∀ next, 0 < next → next < nodes.size →
    ∃! p : Nat × Bool, childAt nodes p.1 p.2 = some next

/-- Each node but the root has a parent. -/
def Joined (nodes : Array TrieNode) : Prop :=
  ∀ next, 0 < next → next < nodes.size → ∃ i bit, childAt nodes i bit = some next

variable {nodes : Array TrieNode} {place : Nat} {bit : Bool} {t : BitTrie}
  {path p : List Bool} {paths : List (List Bool)}

/-! ## Parents -/

theorem Shaped.tree (h : Shaped nodes) (hjoined : Joined nodes) : Tree nodes where
  later _ _ _ hnext := h.later hnext
  parent next hpos hlt := by
    obtain ⟨i, bit, hnext⟩ := hjoined next hpos hlt
    refine ⟨(i, bit), hnext, fun q hq => ?_⟩
    obtain ⟨hi, hbit⟩ := h.parent hq hnext
    exact Prod.ext hi hbit

theorem Joined.mark (h : Joined nodes) : Joined (nodes.modify place TrieNode.mark) := by
  intro next hpos hlt
  rw [Array.size_modify] at hlt
  obtain ⟨i, bit, hnext⟩ := h next hpos hlt
  exact ⟨i, bit, childAt_mark.trans hnext⟩

theorem Joined.grow (h : Joined nodes) (hplace : place < nodes.size)
    (hnone : childAt nodes place bit = none) : Joined (grow nodes place bit) := by
  intro next hpos hlt
  rw [size_grow] at hlt
  rcases Nat.lt_succ_iff_lt_or_eq.mp hlt with hlt | rfl
  · obtain ⟨i, b, hnext⟩ := h next hpos hlt
    have hold : ¬(i = place ∧ b = bit) := by
      rintro ⟨rfl, rfl⟩
      rw [hnone] at hnext
      cases hnext
    refine ⟨i, b, ?_⟩
    rw [childAt_grow hplace, if_neg hold, hnext]
  · refine ⟨place, bit, ?_⟩
    rw [childAt_grow hplace, if_pos ⟨rfl, rfl⟩]

theorem joined_empty : Joined empty.nodes := by
  intro next hpos hlt
  exact absurd hpos (Nat.not_lt_of_le (Nat.le_of_lt_succ hlt))

theorem Sound.joined_insert (h : t.Sound) (hjoined : Joined t.nodes) (path : List Bool) :
    Joined (t.insert path).nodes :=
  walk_induction h.shaped h.shaped.size_pos (fun _ hP => hP.mark)
    (fun hplace hnone hP => hP.grow hplace hnone) hjoined path

theorem tree_ofPaths (paths : List (List Bool)) : Tree (ofPaths paths).nodes := by
  have hjoined : Joined (ofPaths paths).nodes :=
    sound_empty.foldl_induction (P := fun u => Joined u.nodes)
      (fun hu hu' path => hu.joined_insert hu' path) joined_empty paths
  exact (sound_ofPaths paths).shaped.tree hjoined

/-! ## Counts -/

/-- A path is counted if no start of it is stored. -/
theorem Sound.stored_insert_of_free (h : t.Sound) (hfree : ∀ p, Stored t.nodes p → ¬p <+: path) :
    (t.insert path).stored = t.stored + 1 := by
  obtain ⟨-, -, hstop⟩ := walk_spec h.shaped follow_nil path
  rw [stored_insert]
  cases hr : (walk t.nodes 0 path).2 with
  | true => rfl
  | false =>
    obtain ⟨p, hp, hs⟩ := hstop hr
    exact absurd hp (hfree p hs)

theorem Sound.stored_foldl_insert (h : t.Sound)
    (hpaths : paths.Pairwise fun p q => ¬p <+: q)
    (hfree : ∀ p, Stored t.nodes p → ∀ q ∈ paths, ¬p <+: q) :
    (paths.foldl BitTrie.insert t).stored = t.stored + paths.length := by
  induction paths generalizing t with
  | nil => rfl
  | cons path paths ih =>
    obtain ⟨hpath, hpaths⟩ := List.pairwise_cons.mp hpaths
    have hcount := h.stored_insert_of_free fun p hp => hfree p hp path (List.mem_cons_self ..)
    rw [List.foldl_cons, ih (h.insert path) hpaths, hcount, List.length_cons]
    · omega
    · intro p hp q hq
      rw [nodes_insert, (walk_spec h.shaped follow_nil path).2.1] at hp
      rcases hp with hp | ⟨-, rfl⟩
      · exact hfree p hp q (List.mem_cons_of_mem _ hq)
      · exact hpath q hq

/-- Where no path is a start of a later one, all of them are counted. -/
theorem stored_ofPaths_eq_length (h : paths.Pairwise fun p q => ¬p <+: q) :
    (ofPaths paths).stored = paths.length := by
  have hfree : ∀ p, Stored empty.nodes p → ∀ q ∈ paths, ¬p <+: q :=
    fun p hp => absurd hp not_stored_empty
  exact (sound_empty.stored_foldl_insert h hfree).trans (Nat.zero_add _)

end BitTrie

/-! ## Bits that blocks fix -/

theorem getElem?_bitPath {width i : Nat} (n : Nat) (hi : i < width) :
    (bitPath width n)[i]? = some (n.testBit (width - 1 - i)) := by
  induction width generalizing i with
  | zero => exact absurd hi (Nat.not_lt_zero i)
  | succ width ih =>
    cases i with
    | zero => rfl
    | succ i =>
      have hindex : width + 1 - 1 - (i + 1) = width - 1 - i := by omega
      rw [bitPath, List.getElem?_cons_succ, ih (Nat.lt_of_succ_lt_succ hi), hindex]

namespace Block

variable {a : Address} {b c : Block} {rs : List Range} {family : Family}

/-- The address has the first bits of the one of the block, as many as the block fixes. -/
def Fixes (b : Block) (a : Address) : Prop :=
  ∀ i < b.length, a.value.testBit (b.family.bits - 1 - i) =
    b.address.value.testBit (b.family.bits - 1 - i)

instance (b : Block) (a : Address) : Decidable (b.Fixes a) :=
  Nat.decidableBallLT b.length _

theorem path_isPrefix_iff_fixes (hfamily : a.family = b.family) (hb : b.length ≤ b.family.bits) :
    b.path <+: a.path ↔ b.Fixes a := by
  have hbit (c : Address) (hc : c.family = b.family) {i : Nat} (hi : i < b.length) :
      c.path[i]? = some (c.value.testBit (b.family.bits - 1 - i)) := by
    rw [Address.path, hc, getElem?_bitPath _ (Nat.lt_of_lt_of_le hi hb)]
  rw [List.prefix_iff_eq_take, length_path hb, path, List.ext_getElem?_iff]
  simp only [List.getElem?_take]
  constructor
  · intro h i hi
    have hat := h i
    rw [if_pos hi, if_pos hi, hbit _ rfl hi, hbit _ hfamily hi] at hat
    exact (Option.some.inj hat).symm
  · intro h i
    by_cases hi : i < b.length
    · rw [if_pos hi, if_pos hi, hbit _ rfl hi, hbit _ hfamily hi, h i hi]
    · rw [if_neg hi, if_neg hi]

/-- The bits that a block fixes are not those that a block after it starts with. -/
theorem Before.not_isPrefix (h : Before b c) (hfamily : b.family = c.family)
    (hb : b.length ≤ b.family.bits) : ¬b.path <+: c.path := by
  intro hstart
  have hmem : c.address.value ∈ b.extent :=
    (path_isPrefix_iff hfamily.symm hb).mp (hstart.trans (List.take_prefix ..))
  have hself : c.address.value ∈ c.extent := mem_extent_iff.mpr rfl
  rw [← toExtent_range] at hmem hself
  rcases h with hversion | ⟨-, hlt⟩
  · rw [hfamily] at hversion
    exact absurd hversion (Nat.lt_irrefl _)
  · exact absurd (Nat.lt_of_le_of_lt hmem.2 hlt) (Nat.not_lt_of_le hself.1)

end Block

namespace BlockTrie

variable {rs : List Range} {family : Family}

theorem stored_ofRanges (family : Family) (rs : List Range) :
    ((ofRanges rs).tries.get family).stored = (Cover.ofRanges family rs).blocks.length := by
  have hpaths : ((Cover.ofRanges family rs).blocks.map Block.path).Pairwise
      fun p q => ¬p <+: q := by
    rw [List.pairwise_map]
    refine (Cover.pairwise_before family rs).imp_of_mem fun hb hc hbefore => ?_
    have hfamily := (Cover.family_of_mem_blocks hb).trans (Cover.family_of_mem_blocks hc).symm
    exact hbefore.not_isPrefix hfamily (Cover.length_le_of_mem_blocks hb)
  rw [tries_ofRanges, BitTrie.stored_ofPaths_eq_length hpaths, List.length_map]

/-- A trie counts the blocks of its ranges. -/
theorem blocks_ofRanges (rs : List Range) :
    (ofRanges rs).blocks = (Block.covering rs).length := by
  rw [blocks, stored_ofRanges, stored_ofRanges, Block.covering, List.length_append]

end BlockTrie

namespace BitTrie

/-- **Any history.** Whatever blocks of a family are stored in a trie, its nodes form a tree, it
holds an address exactly when the address agrees with one of the blocks on the bits the block
fixes, and it counts none only if there were none. As long as there are fewer nodes than words, it is
the same trie with its places in words, where no node or bit is looked for that is not there. The
trie of ranges counts as many blocks as there are in their cover. -/
theorem correct_of_any_history :
    (∀ (family : Family) (bs : List Block),
      (∀ b ∈ bs, b.family = family ∧ b.length ≤ b.family.bits) →
        Tree (ofPaths (bs.map Block.path)).nodes ∧
        (∀ a : Address, a.family = family →
          ((ofPaths (bs.map Block.path)).holds a.path = true ↔ ∃ b ∈ bs, b.Fixes a)) ∧
        (0 < (ofPaths (bs.map Block.path)).stored ↔ bs ≠ []) ∧
        ((ofPaths (bs.map Block.path)).nodes.size < Nat.pow 2 32 →
          ∃ w, WordTrie.ofBlocks? family bs = some w ∧ w.trie = ofPaths (bs.map Block.path) ∧
            ∀ a : Address, a.family = family →
              w.contains? a.key = some ((ofPaths (bs.map Block.path)).holds a.path))) ∧
    ∀ rs : List Range, (BlockTrie.ofRanges rs).blocks = (Block.covering rs).length := by
  refine ⟨fun family bs hbs => ⟨tree_ofPaths _, fun a ha => ?_, ?_, fun hfits => ?_⟩,
    BlockTrie.blocks_ofRanges⟩
  · rw [holds_ofPaths_iff]
    simp only [List.mem_map, exists_exists_and_eq_and]
    refine exists_congr fun b => and_congr_right fun hb => ?_
    exact Block.path_isPrefix_iff_fixes (ha.trans (hbs b hb).1.symm) (hbs b hb).2
  · rw [Nat.pos_iff_ne_zero, Ne, stored_ofPaths_eq_zero_iff, List.map_eq_nil_iff]
  · obtain ⟨w, hw, hfamily, htrie⟩ := WordTrie.exists_ofBlocks?_eq hbs (Nat.le_of_lt hfits)
    have hsound : w.trie.Sound := htrie ▸ sound_ofPaths _
    refine ⟨w, hw, htrie, fun a ha => ?_⟩
    rw [← htrie]
    exact WordTrie.contains?_eq hsound (ha.trans hfamily.symm)

/-- A block, one inside it, the same block again, and a shorter one with all of its addresses. -/
theorem correct_of_nested_history :
    let ten : Block := ⟨.ofNat .v4 0x0A000000, 8⟩
    let history : List Block := [ten, ⟨.ofNat .v4 0x0A010000, 16⟩, ten, ⟨.ofNat .v4 0, 4⟩]
    let a : Address := .ofNat .v4 0x0B000001
    (∀ b ∈ history, b.family = .v4 ∧ b.length ≤ b.family.bits) ∧ a.family = .v4 ∧
      (ofPaths (history.map Block.path)).nodes.size < Nat.pow 2 32 ∧
      (ofPaths (history.map Block.path)).holds a.path = true ∧
      ∃ w, WordTrie.ofBlocks? .v4 history = some w ∧ w.trie = ofPaths (history.map Block.path) ∧
        w.contains? a.key = some true := by
  intro ten history a
  have hhistory : ∀ b ∈ history, b.family = .v4 ∧ b.length ≤ b.family.bits := by decide
  have hfits : (ofPaths (history.map Block.path)).nodes.size < Nat.pow 2 32 := by decide +kernel
  have hfixes : ∃ b ∈ history, b.Fixes a := ⟨⟨.ofNat .v4 0, 4⟩, by decide, by decide⟩
  obtain ⟨-, hholds, -, hwords⟩ := correct_of_any_history.1 .v4 history hhistory
  obtain ⟨w, hw, htrie, hcontains⟩ := hwords hfits
  have ha : (ofPaths (history.map Block.path)).holds a.path = true := (hholds a rfl).mpr hfixes
  refine ⟨hhistory, rfl, hfits, ha, w, hw, htrie, ?_⟩
  rw [hcontains a rfl, ha]

end BitTrie

end NetRanges
