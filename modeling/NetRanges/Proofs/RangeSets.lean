import NetRanges.Proofs.Origins
import NetRanges.Proofs.Patterns
import NetRanges.Proofs.WrittenTexts

/-!
# Sets of ranges are canonical

To sort ranges brings equal ones together, so that none is left twice when repetitions are erased,
and two sets have the same list of ranges exactly when they were made of the same ranges
(`RangeSet.beq_ofRanges_iff`). A scan keeps the extents of each family in the same way
(`ScanList.ofRanges_eq_iff`). Ranges are in the order of their octets, those of the lower end first
(`Range.precedes_iff_key_lt`).

A text is read as a set piece by piece, blank pieces left out, and the first piece that is refused
decides the error (`RangeSet.ofText_eq_error_iff`). The text of a range has no comma, so the pieces
of the text of a set are the texts of its ranges.
-/

namespace NetRanges

/-! ## The order of ranges -/

/-- The octets of an address, the most significant one first. -/
def Address.octets (a : Address) : List Nat :=
  Positional.digits 256 a.family.bytes a.value

namespace Range

variable {r s : Range}

/-- The shorter family comes first, then the smaller first value, then the smaller last value. -/
def Precedes (r s : Range) : Prop :=
  r.family.version < s.family.version ∨
    r.family = s.family ∧ (r.first < s.first ∨ r.first = s.first ∧ r.last < s.last)

/-- The family of a range and the octets of its two ends. -/
def key (r : Range) : List Nat :=
  r.family.version :: (r.lower.octets ++ r.upper.octets)

theorem octets_append_lt_iff (hfam : r.family = s.family) :
    r.lower.octets ++ r.upper.octets < s.lower.octets ++ s.upper.octets ↔
      r.first < s.first ∨ r.first = s.first ∧ r.last < s.last := by
  have hbound {n : Nat} (h : n < r.family.size) : n < Nat.pow 256 r.family.bytes :=
    r.family.size_eq_pow_bytes ▸ h
  have hlast : Positional.digits 256 r.family.bytes r.last ++ [] <
      Positional.digits 256 r.family.bytes s.last ++ [] ↔ _ :=
    Positional.digits_append_lt_iff (hbound r.last_lt) (hbound (hfam ▸ s.last_lt))
  rw [List.append_nil, List.append_nil] at hlast
  show Positional.digits 256 r.family.bytes r.first ++ Positional.digits 256 r.family.bytes r.last <
    Positional.digits 256 s.family.bytes s.first ++ Positional.digits 256 s.family.bytes s.last ↔ _
  rw [← hfam, Positional.digits_append_lt_iff (hbound r.first_lt) (hbound (hfam ▸ s.first_lt)),
    hlast]
  simp only [Std.lt_irrefl, and_false, or_false]

theorem precedes_iff_key_lt : r.Precedes s ↔ r.key < s.key := by
  unfold key Precedes
  rw [List.cons_lt_cons_iff]
  refine or_congr_right ⟨?_, ?_⟩
  · rintro ⟨hfam, h⟩
    exact ⟨congrArg Family.version hfam, (octets_append_lt_iff hfam).mpr h⟩
  · rintro ⟨hversion, h⟩
    have hfam : r.family = s.family := Family.eq_of_version_eq hversion
    exact ⟨hfam, (octets_append_lt_iff hfam).mp h⟩

theorem precedes_of_le_of_ne (hle : r ≤ s) (hne : r ≠ s) : r.Precedes s := by
  rcases le_iff.mp hle with hlt | ⟨hversion, hext⟩
  · exact Or.inl hlt
  · have hfam : r.family = s.family := Family.eq_of_version_eq hversion
    refine Or.inr ⟨hfam, (Extent.le_iff.mp hext).imp_right fun ⟨hfirst, hlast⟩ => ⟨hfirst, ?_⟩⟩
    exact Nat.lt_of_le_of_ne hlast fun heq => hne (eq_of_ends_eq hfam hfirst heq)

end Range

/-! ## Sets and scans with the same ranges -/

theorem RangeSet.pairwise_ranges (rs : List Range) (options : Options) :
    (ofRanges rs options).ranges.Pairwise Range.Precedes := by
  have h := pairwise_eraseReps (fun _ _ => Range.le_antisymm) (Range.sort_sorted rs)
  exact h.imp fun ⟨hle, hne⟩ => Range.precedes_of_le_of_ne hle hne

theorem RangeSet.beq_ofRanges_iff {rs ss : List Range} {options options' : Options} :
    (ofRanges rs options == ofRanges ss options') = true ↔ ∀ r, r ∈ rs ↔ r ∈ ss := by
  show ((Range.sort rs).eraseReps == (Range.sort ss).eraseReps) = true ↔ _
  rw [beq_iff_eq, eraseReps_eq_iff (fun _ _ => Range.le_antisymm) (Range.sort_sorted rs)
    (Range.sort_sorted ss)]
  simp only [(Range.sort_perm _).mem_iff]

namespace Cover

/-- A range is one of some ranges when its extent is one of those of its family. -/
theorem toExtent_mem_extentsOf_iff {r : Range} {rs : List Range} :
    r.toExtent ∈ extentsOf r.family rs ↔ r ∈ rs := by
  rw [mem_extentsOf]
  constructor
  · rintro ⟨s, hs, hfam, hext⟩
    obtain rfl : s = r :=
      Range.eq_of_ends_eq hfam (congrArg Extent.first hext) (congrArg Extent.last hext)
    exact hs
  · exact fun hr => ⟨r, hr, rfl, rfl⟩

end Cover

theorem ScanList.ofRanges_eq_iff {rs ss : List Range} :
    ofRanges rs = ofRanges ss ↔ ∀ r, r ∈ rs ↔ r ∈ ss := by
  constructor
  · intro h r
    rw [← Cover.toExtent_mem_extentsOf_iff, ← mem_extents, h, mem_extents,
      Cover.toExtent_mem_extentsOf_iff]
  · intro h
    refine congrArg mk (ByFamily.ext_get fun family => ?_)
    show (ofRanges rs).extents.get family = (ofRanges ss).extents.get family
    rw [extents_ofRanges, extents_ofRanges, eraseReps_eq_iff (fun _ _ => Extent.le_antisymm)
      (Extent.sort_sorted _) (Extent.sort_sorted _)]
    intro e
    rw [(Extent.sort_perm _).mem_iff, (Extent.sort_perm _).mem_iff, Cover.mem_extentsOf,
      Cover.mem_extentsOf]
    simp only [h]

/-! ## Reading lists of texts -/

namespace Range

variable {t : Text} {ts : List Text} {rs : List Range} {e : Error}

theorem ofText_trim (t : Text) : ofText (Text.trim t) = ofText t := by
  unfold ofText
  rw [Item.ofText_trim]

theorem ofTexts_map_trim (ts : List Text) : ofTexts (ts.map Text.trim) = ofTexts ts := by
  induction ts with
  | nil => rfl
  | cons t ts ih => rw [List.map_cons, ofTexts_cons, ofTexts_cons, ofText_trim, ih]

theorem not_blank_of_ofText {r : Range} (h : ofText t = .ok r) : ¬Text.Blank t := by
  obtain ⟨i, hi, -⟩ := map_eq_ok_iff.mp h
  exact mt Text.trim_eq_nil_iff.mpr (Item.trim_ne_nil_of_ofText hi)

/-- The text of a range has characters of addresses, blanks and an arrow. -/
theorem comma_not_mem_text (r : Range) : ',' ∉ r.text := by
  have haddress (a : Address) : ',' ∉ a.text := fun h =>
    absurd (a.isAddressChar_of_mem_text ',' h) (by decide)
  unfold text
  by_cases h : r.isSingle = true
  · rw [if_pos h]
    exact haddress r.lower
  · rw [if_neg h, List.mem_append, List.mem_append]
    rintro ((hc | hc) | hc)
    · exact haddress _ hc
    · exact absurd hc (by decide)
    · exact haddress _ hc

theorem exists_ofTexts_iff :
    (∃ rs, ofTexts ts = .ok rs) ↔ ∀ t ∈ ts, ∃ r, ofText t = .ok r := by
  induction ts with
  | nil => exact iff_of_true ⟨[], rfl⟩ fun t ht => absurd ht List.not_mem_nil
  | cons t ts ih =>
    rw [List.forall_mem_cons, ← ih, ofTexts_cons]
    constructor
    · rintro ⟨rs, h⟩
      obtain ⟨r, hr, h⟩ := bind_eq_ok_iff.mp h
      obtain ⟨rest, hrest, -⟩ := map_eq_ok_iff.mp h
      exact ⟨⟨r, hr⟩, rest, hrest⟩
    · rintro ⟨⟨r, hr⟩, rest, hrest⟩
      exact ⟨r :: rest, bind_eq_ok_iff.mpr ⟨r, hr, map_eq_ok_iff.mpr ⟨rest, hrest, rfl⟩⟩⟩

theorem mem_ofTexts_iff (h : ofTexts ts = .ok rs) {r : Range} :
    r ∈ rs ↔ ∃ t ∈ ts, ofText t = .ok r := by
  refine ⟨exists_of_mem_ofTexts h, ?_⟩
  rintro ⟨t, ht, hr⟩
  obtain ⟨i, hi, rfl⟩ := map_eq_ok_iff.mp hr
  rw [Loose.eq_of_ofTexts h]
  exact List.mem_map_of_mem (List.mem_filterMap.mpr ⟨t, ht, toOption_eq_some_iff.mpr hi⟩)

theorem ofTexts_eq_error_iff :
    ofTexts ts = .error e ↔
      ∃ t, ofText t = .error e ∧ IsFirst (fun u => ∃ e, ofText u = .error e) ts t := by
  induction ts with
  | nil =>
    constructor
    · nofun
    · rintro ⟨t, -, h⟩
      cases h
  | cons u ts ih =>
    rw [ofTexts_cons, bind_eq_error_iff]
    constructor
    · rintro (hu | ⟨r, hr, h⟩)
      · exact ⟨u, hu, .head ⟨e, hu⟩⟩
      · obtain ⟨t, ht, hfirst⟩ := ih.mp (map_eq_error_iff.mp h)
        refine ⟨t, ht, .cons ?_ hfirst⟩
        rintro ⟨e', hu⟩
        rw [hr] at hu
        cases hu
    · rintro ⟨t, ht, hfirst⟩
      cases hfirst with
      | head _ => exact Or.inl ht
      | cons hu hfirst =>
        cases hread : ofText u with
        | error e' => exact absurd ⟨e', hread⟩ hu
        | ok r => exact Or.inr ⟨r, rfl, map_eq_error_iff.mpr (ih.mpr ⟨t, ht, hfirst⟩)⟩

end Range

/-! ## The text of a set -/

namespace Text

/-- The pieces of a text that are not blank, with the blanks around them. -/
def parts (t : Text) : List Text :=
  (t.splitOn ',').filter fun p => ¬Blank p

theorem parts_nil : parts [] = [] := by
  unfold parts
  rw [List.splitOn_nil, List.filter_cons, if_neg (mt of_decide_eq_true (not_not_intro blank_nil)),
    List.filter_nil]

theorem pieces_eq_map_parts (t : Text) : pieces t = t.parts.map trim := by
  have hblank : ((!·.isEmpty) ∘ trim) = fun p : Text => decide (¬Blank p) := by
    funext p
    have hempty : (trim p).isEmpty = decide (Blank p) := by
      rw [Bool.eq_iff_iff, List.isEmpty_iff, decide_eq_true_iff, trim_eq_nil_iff]
    rw [Function.comp_apply, hempty, decide_not]
  unfold pieces parts
  rw [List.filter_map, hblank]

end Text

namespace RangeSet

variable {t : Text} {s : RangeSet} {e : Error} {rs : List Range} {options : Options}

theorem ofText_eq (t : Text) : ofText t = (Range.ofTexts t.parts).map fun rs => ofRanges rs := by
  unfold ofText
  rw [Text.pieces_eq_map_parts, Range.ofTexts_map_trim]

/-- A text is read as a set when each piece that is not blank is read as a range. -/
theorem exists_ofText_iff :
    (∃ s, ofText t = .ok s) ↔
      ∀ p ∈ t.splitOn ',', ¬Text.Blank p → ∃ r, Range.ofText p = .ok r := by
  have hparts : (∀ p ∈ t.parts, ∃ r, Range.ofText p = .ok r) ↔
      ∀ p ∈ t.splitOn ',', ¬Text.Blank p → ∃ r, Range.ofText p = .ok r := by
    simp only [Text.parts, List.mem_filter, decide_eq_true_iff, and_imp]
  rw [ofText_eq, ← hparts, ← Range.exists_ofTexts_iff]
  constructor
  · rintro ⟨s, hs⟩
    obtain ⟨rs, hrs, -⟩ := map_eq_ok_iff.mp hs
    exact ⟨rs, hrs⟩
  · rintro ⟨rs, hrs⟩
    exact ⟨_, map_eq_ok_iff.mpr ⟨rs, hrs, rfl⟩⟩

/-- A text is refused for the reason for which its first piece is refused that is not blank. -/
theorem ofText_eq_error_iff :
    ofText t = .error e ↔
      ∃ p, Range.ofText p = .error e ∧
        IsFirst (fun p => ¬Text.Blank p ∧ ∃ e, Range.ofText p = .error e) (t.splitOn ',') p := by
  rw [ofText_eq, map_eq_error_iff, Range.ofTexts_eq_error_iff]
  simp only [Text.parts, IsFirst.filter_iff]

theorem mem_ranges_of_ofText (h : ofText t = .ok s) {r : Range} :
    r ∈ s.ranges ↔ ∃ p ∈ t.splitOn ',', Range.ofText p = .ok r := by
  rw [ofText_eq] at h
  obtain ⟨rs, hrs, rfl⟩ := map_eq_ok_iff.mp h
  rw [mem_ranges, Range.mem_ofTexts_iff hrs]
  constructor
  · rintro ⟨p, hp, hread⟩
    exact ⟨p, (List.mem_filter.mp hp).1, hread⟩
  · rintro ⟨p, hp, hread⟩
    exact ⟨p, List.mem_filter.mpr ⟨hp, decide_eq_true (Range.not_blank_of_ofText hread)⟩, hread⟩

/-- The text of a set holds the texts of its ranges between the brackets. -/
theorem parts_joined (rs : List Range) :
    Text.parts (List.intercalate [','] (rs.map Range.text)) = rs.map Range.text := by
  have hblank : ∀ p ∈ rs.map Range.text, ¬Text.Blank p := by
    intro p hp
    obtain ⟨r, -, rfl⟩ := List.mem_map.mp hp
    exact Range.not_blank_of_ofText r.ofText_text
  have hcomma : ∀ p ∈ rs.map Range.text, ',' ∉ p := by
    intro p hp
    obtain ⟨r, -, rfl⟩ := List.mem_map.mp hp
    exact r.comma_not_mem_text
  by_cases hne : rs.map Range.text = []
  · rw [hne]
    exact Text.parts_nil
  · rw [Text.parts, List.splitOn_intercalate ',' hcomma hne]
    exact List.filter_eq_self.mpr fun p hp => decide_eq_true (hblank p hp)

theorem exists_ofText_text (rs : List Range) (options : Options) :
    ∃ t s, (ofRanges rs options).text = '[' :: (t ++ [']']) ∧ ofText t = .ok s ∧
      (s == ofRanges rs options) = true := by
  have hread : ofText (List.intercalate [','] ((ofRanges rs options).ranges.map Range.text)) =
      .ok (ofRanges (ofRanges rs options).ranges) := by
    rw [ofText_eq, parts_joined, Range.ofTexts_map_text]
    rfl
  exact ⟨_, _, rfl, hread, beq_ofRanges_iff.mpr fun r => mem_ranges⟩

/-- **Sets of ranges.** The ranges of a set are those it was made of, in strictly ascending order,
which is that of their octets. Two sets are equal when they were made of the same ranges, and so are
two scans. A text is read as a set when each of its pieces is read that is not blank, and the set
has their ranges; else it is refused for the reason of the first one that is refused. The text of a
set is read, without its brackets, as an equal set. -/
theorem canonical_and_reads_back :
    (∀ (rs : List Range) (options : Options),
      (ofRanges rs options).ranges.Pairwise Range.Precedes ∧
        ∀ r, r ∈ (ofRanges rs options).ranges ↔ r ∈ rs) ∧
      (∀ r s : Range, r.Precedes s ↔ r.key < s.key) ∧
      (∀ (rs ss : List Range) (options options' : Options),
        ((ofRanges rs options == ofRanges ss options') = true ↔ ∀ r, r ∈ rs ↔ r ∈ ss) ∧
          (ScanList.ofRanges rs = ScanList.ofRanges ss ↔ ∀ r, r ∈ rs ↔ r ∈ ss)) ∧
      (∀ t : Text,
        ((∃ s, ofText t = .ok s) ↔
          ∀ p ∈ t.splitOn ',', ¬Text.Blank p → ∃ r, Range.ofText p = .ok r) ∧
        (∀ s, ofText t = .ok s → ∀ r, r ∈ s.ranges ↔
          ∃ p ∈ t.splitOn ',', Range.ofText p = .ok r) ∧
        ∀ e, ofText t = .error e ↔ ∃ p, Range.ofText p = .error e ∧
          IsFirst (fun p => ¬Text.Blank p ∧ ∃ e, Range.ofText p = .error e) (t.splitOn ',') p) ∧
      ∀ (rs : List Range) (options : Options), ∃ t s,
        (ofRanges rs options).text = '[' :: (t ++ [']']) ∧ ofText t = .ok s ∧
          (s == ofRanges rs options) = true := by
  refine ⟨fun rs options => ⟨pairwise_ranges rs options, fun r => mem_ranges⟩, fun r s => ?_,
    fun rs ss options options' => ?_, fun t => ⟨exists_ofText_iff, ?_, ?_⟩, exists_ofText_text⟩
  · exact Range.precedes_iff_key_lt
  · exact ⟨beq_ofRanges_iff, ScanList.ofRanges_eq_iff⟩
  · exact fun s h r => mem_ranges_of_ofText h
  · exact fun e => ofText_eq_error_iff

/-- A range that is written twice, in two ways, with a blank piece and one of the other family. -/
theorem canonical_and_reads_back_of_repeated :
    let t : Text := "::1, 10.0.0.0/31 ,,10.0.0.0-10.0.0.1".toList
    let r : Range := .spanning .v4 0x0A000000 0x0A000001
    ∃ s, ofText t = .ok s ∧ s.ranges = [r, .spanning .v6 1 1] ∧
      ∀ r, r ∈ s.ranges ↔ ∃ p ∈ t.splitOn ',', Range.ofText p = .ok r := by
  intro t r
  have hrs : Range.ofTexts (Text.pieces t) = .ok [.spanning .v6 1 1, r, r] := by decide +kernel
  have hs : ofText t = .ok (ofRanges [.spanning .v6 1 1, r, r]) := map_eq_ok_iff.mpr ⟨_, hrs, rfl⟩
  have hranges : (ofRanges [.spanning .v6 1 1, r, r]).ranges = [r, .spanning .v6 1 1] := by
    show (Range.sort _).eraseReps = [r, .spanning .v6 1 1].eraseReps
    rw [eraseReps_eq_iff (fun _ _ => Range.le_antisymm) (Range.sort_sorted _) (by decide)]
    intro c
    rw [(Range.sort_perm _).mem_iff]
    simp [or_comm]
  exact ⟨_, hs, hranges, (canonical_and_reads_back.2.2.2.1 t).2.1 _ hs⟩

end RangeSet

end NetRanges
