import Mathlib.Combinatorics.Enumerative.DoubleCounting
import NetRanges.Proofs.Partition

/-!
# No fewer blocks

The next block of a stretch is the largest one that may stand there (`Stretch.Valid.le_taken`).
A block that starts later either starts in the block just taken, and then does not reach beyond
it, or lies in what is left; so every block inside a stretch lies inside one block of the run
(`Stretch.Valid.exists_mem_run_within`). Values without a gap lie in one extent of a cover
(`Extent.Gapped.exists_mem_of_forall`). Hence every block that some ranges cover lies inside one
of their own blocks, and no list of blocks with the same addresses is shorter.
-/

namespace NetRanges

/-! ## Blocks that start in the next one -/

theorem add_le_of_dvd_of_lt {d m n : Nat} (hm : d ∣ m) (hn : d ∣ n) (h : m < n) : m + d ≤ n := by
  have hle := Nat.le_of_dvd (Nat.sub_pos_of_lt h) (Nat.dvd_sub hn hm)
  omega

namespace Stretch

variable {s : Stretch} {k first : Nat}

theorem Valid.end_le_of_start_lt (hs : s.Valid) (hk : k ≤ s.family.bits)
    (hdvd : Nat.pow 2 k ∣ first) (hstart : s.start ≤ first)
    (hstop : first + Nat.pow 2 k ≤ s.stop + 1) (hlt : first < s.start + s.taken) :
    first + Nat.pow 2 k ≤ s.start + s.taken := by
  rcases Nat.le_total k (s.family.bits - s.length) with hsmall | hlarge
  · have htaken : Nat.pow 2 k ∣ s.taken := Nat.pow_dvd_pow 2 hsmall
    have hend := Nat.dvd_add (Nat.dvd_trans htaken hs.taken_dvd_start) htaken
    exact add_le_of_dvd_of_lt hdvd hend hlt
  · -- The size taken divides both starts, and they are less than that apart.
    have htaken : s.taken ∣ first := Nat.dvd_trans (Nat.pow_dvd_pow 2 hlarge) hdvd
    have heq : first = s.start := by
      rcases Nat.lt_or_eq_of_le hstart with hlt' | heq
      · have := add_le_of_dvd_of_lt hs.taken_dvd_start htaken hlt'
        omega
      · exact heq.symm
    subst heq
    have hremaining : Nat.pow 2 k ≤ s.remaining := by
      unfold remaining
      omega
    exact Nat.add_le_add_left (hs.le_taken hk hdvd hremaining) _

/-- Every block inside a stretch lies inside one block of the run. -/
theorem Valid.exists_mem_run_within (hs : s.Valid) (hk : k ≤ s.family.bits)
    (hdvd : Nat.pow 2 k ∣ first) (hstart : s.start ≤ first)
    (hstop : first + Nat.pow 2 k ≤ s.stop + 1) :
    ∃ t ∈ s.run, t.start ≤ first ∧ first + Nat.pow 2 k ≤ t.start + t.taken := by
  fun_induction run s with
  | case1 s ih =>
    by_cases hlt : first < s.start + s.taken
    · exact ⟨s, List.mem_cons_self .., hstart, hs.end_le_of_start_lt hk hdvd hstart hstop hlt⟩
    · have hpos : 0 < Nat.pow 2 k := Nat.two_pow_pos k
      have hnext : s.next.start ≤ first := Nat.le_of_not_lt hlt
      have hle : s.next.start ≤ s.stop := by omega
      obtain ⟨t, ht, hwithin⟩ := ih hle (hs.next hle) hk hnext hstop
      rw [if_pos hle]
      exact ⟨t, List.mem_cons_of_mem _ ht, hwithin⟩

end Stretch

/-! ## Blocks inside blocks -/

namespace Block

/-- The addresses of `c` are addresses of `b`. -/
structure Within (c b : Block) : Prop where
  family_eq : c.family = b.family
  first_le : b.extent.first ≤ c.extent.first
  last_le : c.extent.last ≤ b.extent.last

variable {b c : Block} {rs : List Range} {a : Address}

theorem Within.contains (h : c.Within b) (ha : c.range.contains a false = true) :
    b.range.contains a false = true := by
  obtain ⟨hfam, hfirst, hlast⟩ := contains_range_iff.mp ha
  refine contains_range_iff.mpr ⟨h.family_eq.symm.trans hfam, ?_, ?_⟩
  · exact Nat.le_trans h.first_le hfirst
  · exact Nat.le_trans hlast h.last_le

theorem Within.trans {d : Block} (h : d.Within c) (h' : c.Within b) : d.Within b where
  family_eq := h.family_eq.trans h'.family_eq
  first_le := Nat.le_trans h'.first_le h.first_le
  last_le := Nat.le_trans h.last_le h'.last_le

theorem Within.extent_eq (h : c.Within b) (h' : b.Within c) : c.extent = b.extent := by
  have hfirst : c.extent.first = b.extent.first := Nat.le_antisymm h'.first_le h.first_le
  have hlast : c.extent.last = b.extent.last := Nat.le_antisymm h.last_le h'.last_le
  show Extent.mk c.extent.first c.extent.last = b.extent
  rw [hfirst, hlast]

/-- The first address of a block. -/
def firstAddress (b : Block) : Address :=
  ⟨b.family, b.extent.first, b.extent_first_lt⟩

theorem contains_firstAddress (b : Block) : b.range.contains b.firstAddress false = true :=
  contains_range_iff.mpr ⟨rfl, Nat.le_refl _, b.extent_first_le⟩

theorem Before.not_contains (h : Before b c) (hb : b.range.contains a false = true) :
    ¬ c.range.contains a false = true := by
  intro hc
  obtain ⟨hbfam, -, hblast⟩ := Range.contains_iff.mp hb
  obtain ⟨hcfam, hcfirst, -⟩ := Range.contains_iff.mp hc
  have hfam : b.family = c.family := hbfam.trans hcfam.symm
  rcases h with hlt | ⟨-, hlt⟩
  · rw [hfam] at hlt
    exact Nat.lt_irrefl _ hlt
  · have : b.range.last < a.value := Nat.lt_of_lt_of_le hlt hcfirst
    exact Nat.not_le_of_lt this hblast

theorem eq_of_contains {bs : List Block} (hbs : bs.Pairwise Before) (hb : b ∈ bs) (hc : c ∈ bs)
    (hab : b.range.contains a false = true) (hac : c.range.contains a false = true) : b = c := by
  have hsame : bs.Pairwise fun b c => b.range.contains a false = true →
      c.range.contains a false = true → b = c :=
    hbs.imp fun hbc hb hc => absurd hc (hbc.not_contains hb)
  have hflip : bs.Pairwise fun b c => c.range.contains a false = true →
      b.range.contains a false = true → c = b :=
    hbs.imp fun hbc hc hb => absurd hc (hbc.not_contains hb)
  exact hsame.forall_of_forall_of_flip (fun _ _ _ _ => rfl) hflip hb hc hab hac

theorem nodup_of_pairwise {bs : List Block} (hbs : bs.Pairwise Before) : bs.Nodup :=
  hbs.imp fun {b c} h (heq : b = c) =>
    h.not_contains b.contains_firstAddress (heq ▸ b.contains_firstAddress)

end Block

namespace Range

variable {r : Range} {c : Block}

theorem exists_mem_blocks_within (hfam : c.family = r.family) (hfirst : r.first ≤ c.extent.first)
    (hlast : c.extent.last ≤ r.last) : ∃ b ∈ r.blocks, c.Within b := by
  have hend := c.extent_last_succ
  unfold blocks
  by_cases h : r.first = 0 ∧ r.last = r.family.top
  · rw [if_pos h]
    refine ⟨_, List.mem_singleton_self _, hfam, ?_, ?_⟩
    · rw [extent_whole]
      exact Nat.zero_le _
    · rw [extent_whole]
      exact h.2 ▸ hlast
  · rw [if_neg h]
    have hs := r.valid_stretch
    have hk : c.hostBits ≤ r.family.bits := hfam ▸ Nat.sub_le ..
    have hdvd : Nat.pow 2 c.hostBits ∣ c.extent.first := Nat.dvd_mul_left ..
    have hstop : c.extent.first + Nat.pow 2 c.hostBits ≤ r.last + 1 := by
      have hsize : c.size = Nat.pow 2 c.hostBits := rfl
      omega
    obtain ⟨t, ht, hstart, hstop⟩ := hs.exists_mem_run_within hk hdvd hfirst hstop
    have hblock := (hs.of_mem_run ht).extent_block
    refine ⟨t.block, List.mem_map_of_mem ht, ?_, ?_, ?_⟩
    · exact hfam.trans (Stretch.family_of_mem_run ht).symm
    · rw [hblock]
      exact hstart
    · rw [hblock]
      have hsize : c.size = Nat.pow 2 c.hostBits := rfl
      show c.extent.last ≤ t.start + (t.taken - 1)
      omega

end Range

/-! ## Blocks inside covers -/

namespace Extent.Gapped

variable {es : List Extent} {e : Extent}

theorem succ_last_free (h : Gapped es) (he : e ∈ es) : ¬ ∃ d ∈ es, e.last + 1 ∈ d := by
  induction es with
  | nil => cases he
  | cons f es ih =>
    rcases List.mem_cons.mp he with rfl | he
    · exact h.succ_last_not_mem
    · rintro ⟨d, hd, hv⟩
      have hgap := List.rel_of_pairwise_cons h.gap he
      have hle := h.first_le_last e (List.mem_cons_of_mem _ he)
      rcases List.mem_cons.mp hd with rfl | hd
      · have := hv.2
        omega
      · exact ih h.tail he ⟨d, hd, hv⟩

theorem exists_mem_of_forall (h : Gapped es) {first last : Nat} (hle : first ≤ last)
    (hheld : ∀ v, first ≤ v → v ≤ last → ∃ e ∈ es, v ∈ e) :
    ∃ e ∈ es, e.first ≤ first ∧ last ≤ e.last := by
  obtain ⟨e, he, hfirst, hlast⟩ := hheld first (Nat.le_refl _) hle
  refine ⟨e, he, hfirst, ?_⟩
  by_contra hlt
  exact h.succ_last_free he (hheld (e.last + 1) (by omega) (by omega))

end Extent.Gapped

namespace Block

variable {b c : Block} {rs : List Range}

theorem exists_mem_covering_within (h : ∀ v ∈ c.extent, Covered rs c.family v) :
    ∃ b ∈ covering rs, c.Within b := by
  have hgapped := Cover.gapped_ofRanges c.family rs
  have hheld : ∀ v, c.extent.first ≤ v → v ≤ c.extent.last →
      ∃ e ∈ (Cover.ofRanges c.family rs).extents, v ∈ e := by
    intro v hfirst hlast
    exact (Cover.exists_mem_extents_iff c.family rs).mpr (h v ⟨hfirst, hlast⟩)
  obtain ⟨e, he, hfirst, hlast⟩ := hgapped.exists_mem_of_forall c.extent_first_le hheld
  obtain ⟨r, hr, hfam, rfl⟩ := Cover.exists_mem_ranges he
  obtain ⟨b, hb, hwithin⟩ := Range.exists_mem_blocks_within hfam.symm hfirst hlast
  refine ⟨b, mem_covering.mpr ?_, hwithin⟩
  rw [← hwithin.family_eq]
  exact List.mem_flatMap.mpr ⟨_, hr, hb⟩

theorem exists_mem_covering_within_of_contains (h : ∀ a : Address,
    c.range.contains a false = true → ∃ r ∈ rs, r.contains a false = true) :
    ∃ b ∈ covering rs, c.Within b := by
  apply exists_mem_covering_within
  intro v hv
  have hlt : v < c.family.size := Nat.lt_of_le_of_lt hv.2 c.extent_last_lt
  have ha := h ⟨c.family, v, hlt⟩ (contains_range_iff.mpr ⟨rfl, hv⟩)
  exact Range.exists_contains_iff.mp ha

/-- Each block of ranges needs a block of its own in every list with the same addresses. -/
theorem length_covering_le {cs : List Block} (h : ∀ a : Address,
    (∃ c ∈ cs, c.range.contains a false = true) ↔ ∃ r ∈ rs, r.contains a false = true) :
    (covering rs).length ≤ cs.length := by
  have hcard : (covering rs).toFinset.card ≤ cs.toFinset.card := by
    apply Finset.card_le_card_of_forall_subsingleton fun b c => c.Within b
    · intro b hb
      rw [List.mem_toFinset] at hb
      have hfirst := exists_contains_covering_iff.mp ⟨b, hb, b.contains_firstAddress⟩
      obtain ⟨c, hc, hfirst⟩ := (h b.firstAddress).mpr hfirst
      -- The block that holds the first address of `b` lies inside one block, which is `b`.
      obtain ⟨d, hd, hwithin⟩ :=
        exists_mem_covering_within_of_contains fun a ha => (h a).mp ⟨c, hc, ha⟩
      have heq := eq_of_contains (pairwise_covering rs) hd hb (hwithin.contains hfirst)
        b.contains_firstAddress
      exact ⟨c, List.mem_toFinset.mpr hc, heq ▸ hwithin⟩
    · rintro c - b ⟨hb, hcb⟩ d ⟨hd, hcd⟩
      exact eq_of_contains (pairwise_covering rs) (List.mem_toFinset.mp hb)
        (List.mem_toFinset.mp hd) (hcb.contains c.contains_firstAddress)
        (hcd.contains c.contains_firstAddress)
  rw [List.toFinset_card_of_nodup (nodup_of_pairwise (pairwise_covering rs))] at hcard
  exact Nat.le_trans hcard cs.toFinset_card_le

/-! ## The blocks of a block -/

theorem length_eq_of_size_eq (hfam : b.family = c.family) (hsize : b.size = c.size)
    (hb : b.length ≤ b.family.bits) (hc : c.length ≤ c.family.bits) : b.length = c.length := by
  have hhost : b.hostBits = c.hostBits := Nat.pow_right_injective (Nat.le_refl 2) hsize
  unfold hostBits at hhost
  rw [hfam] at hhost hb
  omega

theorem network_eq_of_extent_eq (hfam : b.family = c.family) (hextent : b.extent = c.extent)
    (hb : b.length ≤ b.family.bits) (hc : c.length ≤ c.family.bits) : b.network = c.network := by
  have hbsucc := b.extent_last_succ
  have hcsucc := c.extent_last_succ
  rw [hextent] at hbsucc
  have hlength : b.length = c.length := length_eq_of_size_eq hfam (by omega) hb hc
  unfold network
  rw [hextent, hlength, hfam]

theorem eq_singleton_of_within {bs : List Block} (hbs : bs.Pairwise Before) (hb : b ∈ bs)
    (h : ∀ d ∈ bs, d.Within b) : bs = [b] := by
  have hall : ∀ d ∈ bs, d = b := fun d hd =>
    eq_of_contains hbs hd hb d.contains_firstAddress ((h d hd).contains d.contains_firstAddress)
  rw [← List.perm_singleton,
    List.perm_ext_iff_of_nodup (nodup_of_pairwise hbs) (List.nodup_singleton b)]
  intro d
  rw [List.mem_singleton]
  exact ⟨hall d, fun heq => heq ▸ hb⟩

/-- The only block of the range of a block is the block without its host bits. -/
theorem blocks_range_eq (hc : c.length ≤ c.family.bits) : c.range.blocks = [c.network] := by
  have hfirst : c.range.first = c.extent.first := congrArg Extent.first c.toExtent_range
  have hlast : c.range.last = c.extent.last := congrArg Extent.last c.toExtent_range
  have hinside : ∀ d ∈ c.range.blocks, d.Within c := by
    intro d hd
    have hends := Range.within_of_mem_blocks hd
    rw [hfirst, hlast] at hends
    exact ⟨Range.family_of_mem_blocks hd, hends.1, hends.2⟩
  -- The block as a whole lies inside one of the blocks, which then has the same addresses.
  obtain ⟨b, hb, hwithin⟩ :=
    Range.exists_mem_blocks_within (r := c.range) rfl hfirst.le hlast.ge
  have hfam := hwithin.family_eq.symm
  have hextent : b.extent = c.extent := (hinside b hb).extent_eq hwithin
  have hnetwork : c.network = b := by
    rw [← network_eq_of_extent_eq hfam hextent (Range.length_le_of_mem_blocks hb) hc,
      Range.network_of_mem_blocks hb]
  rw [hnetwork]
  exact eq_singleton_of_within c.range.pairwise_before hb fun d hd => (hinside d hd).trans hwithin

/-- **Minimality.** Every block that ranges cover lies inside one of their own blocks, no list of
blocks with the same addresses is shorter, and the range of a block is cut into that block. -/
theorem covering_minimal (rs : List Range) :
    (∀ c : Block,
      (∀ a : Address, c.range.contains a false = true → ∃ r ∈ rs, r.contains a false = true) →
      ∃ b ∈ covering rs, ∀ a : Address,
        c.range.contains a false = true → b.range.contains a false = true) ∧
      (∀ cs : List Block,
        (∀ a : Address, (∃ c ∈ cs, c.range.contains a false = true) ↔
          ∃ r ∈ rs, r.contains a false = true) →
        (covering rs).length ≤ cs.length) ∧
      ∀ c : Block, c.length ≤ c.family.bits → c.range.blocks = [c.network] := by
  refine ⟨fun c hc => ?_, fun cs hcs => length_covering_le hcs, fun c hc => blocks_range_eq hc⟩
  obtain ⟨b, hb, hwithin⟩ := exists_mem_covering_within_of_contains hc
  exact ⟨b, hb, fun a ha => hwithin.contains ha⟩

end Block

end NetRanges
