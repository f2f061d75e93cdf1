import NetRanges.Proofs.Canonical
import NetRanges.Proofs.Records
import NetRanges.Proofs.WrittenTexts

/-!
# Changes of form

Ranges are passed on in many forms: sorted in a set, joined by a matcher, cut into blocks, written
as records or as texts. Taking the ranges back from any of these always succeeds and covers the
same (`Change.sameCoverage_apply`), so however many such changes are made one after the other, the
ranges at the end cover what those at the start did (`Change.sameCoverage_applyAll`). A compiled
matcher depends on nothing else than coverage and is the same for both.
-/

namespace NetRanges

theorem Block.covered_map_range {bs : List Block} {family : Family} {v : Nat} :
    Covered (bs.map range) family v ↔ ∃ b ∈ bs, b.family = family ∧ v ∈ b.extent := by
  simp only [Covered, List.mem_map, exists_exists_and_eq_and, toExtent_range]
  rfl

namespace SameCoverage

variable {rs ss ts : List Range}

theorem refl (rs : List Range) : SameCoverage rs rs := fun _ _ => Iff.rfl

theorem trans (hrs : SameCoverage rs ss) (hss : SameCoverage ss ts) : SameCoverage rs ts :=
  fun family v => (hrs family v).trans (hss family v)

/-! ## The ranges of each form -/

/-- A set neither adds a range nor leaves one out. -/
theorem ranges_set (rs : List Range) : SameCoverage (RangeSet.ofRanges rs).ranges rs :=
  fun _ _ => covered_congr_mem fun _ => RangeSet.mem_ranges

theorem ranges_compiled (rs : List Range) (options : Options) :
    SameCoverage (Compiled.ofRanges rs options).ranges rs :=
  fun _ _ => IntervalIndex.covered_ranges

theorem ranges_blocks (rs : List Range) : SameCoverage ((Block.covering rs).map Block.range) rs :=
  fun _ _ => Block.covered_map_range.trans Block.exists_mem_covering_iff

end SameCoverage

/-- A form in which ranges are passed on, as the change from the ranges that are put into it to
those that are taken out again. -/
inductive Change where
  /-- Sorted, without repetitions. -/
  | set
  /-- Joined, by a matcher that is compiled with the options. -/
  | compiled (options : Options)
  /-- Cut into the fewest blocks. -/
  | blocks
  /-- Written as records, then read. -/
  | records
  /-- Written as texts, then read. -/
  | texts

namespace Change

/-- The ranges after one change, or the error that is met on the way. -/
def apply : Change → List Range → Except Error (List Range)
  | set, rs => .ok (RangeSet.ofRanges rs).ranges
  | compiled options, rs => .ok (Compiled.ofRanges rs options).ranges
  | blocks, rs => .ok ((Block.covering rs).map Block.range)
  | records, rs => Record.decodeAll (Range.records rs)
  | texts, rs => Range.ofTexts (rs.map Range.text)

/-- The ranges after changes one after the other, as long as all of them succeed. -/
def applyAll (cs : List Change) (rs : List Range) : Except Error (List Range) :=
  cs.foldlM (fun rs c => c.apply rs) rs

theorem applyAll_cons (c : Change) (cs : List Change) (rs : List Range) :
    applyAll (c :: cs) rs = (c.apply rs).bind (applyAll cs) :=
  List.foldlM_cons ..

/-- One change succeeds and keeps coverage. -/
theorem sameCoverage_apply (c : Change) (rs : List Range) :
    ∃ rs', c.apply rs = .ok rs' ∧ SameCoverage rs' rs := by
  cases c with
  | set => exact ⟨_, rfl, .ranges_set rs⟩
  | compiled options => exact ⟨_, rfl, .ranges_compiled rs options⟩
  | blocks => exact ⟨_, rfl, .ranges_blocks rs⟩
  | records => exact ⟨rs, Record.decodeAll_records rs, .refl rs⟩
  | texts => exact ⟨rs, Range.ofTexts_map_text rs, .refl rs⟩

/-- So do any number of changes in any order. -/
theorem sameCoverage_applyAll (cs : List Change) (rs : List Range) :
    ∃ rs', applyAll cs rs = .ok rs' ∧ SameCoverage rs' rs := by
  induction cs generalizing rs with
  | nil => exact ⟨rs, rfl, .refl rs⟩
  | cons c cs ih =>
    obtain ⟨rs₁, hfirst, hsame₁⟩ := sameCoverage_apply c rs
    obtain ⟨rs₂, hrest, hsame₂⟩ := ih rs₁
    refine ⟨rs₂, ?_, hsame₂.trans hsame₁⟩
    rw [applyAll_cons]
    exact bind_eq_ok_iff.mpr ⟨rs₁, hfirst, hrest⟩

/-- **Changes of form.** Any number of changes in any order succeed, and a matcher compiled from
the ranges at the end is equal to one compiled from those at the start with the same options. In
particular a matcher is equal to the one compiled from its own ranges. -/
theorem compiled_applyAll (cs : List Change) (rs : List Range) (options : Options) :
    (∃ rs', applyAll cs rs = .ok rs' ∧
        Compiled.ofRanges rs' options = Compiled.ofRanges rs options) ∧
      Compiled.ofRanges (Compiled.ofRanges rs options).ranges options =
        Compiled.ofRanges rs options := by
  obtain ⟨rs', hall, hsame⟩ := sameCoverage_applyAll cs rs
  refine ⟨⟨rs', hall, hsame.compiled_eq options⟩, ?_⟩
  exact (SameCoverage.ranges_compiled rs options).compiled_eq options

end Change

end NetRanges
