import Mathlib.Data.List.Basic
import NetRanges.Loose.Report
import NetRanges.Proofs.Patterns
import NetRanges.Proofs.WrittenTexts

/-!
# Contents and reports

The contents of a free text are asked one after the other, as they were found. Without a flag they
hold the addresses that are listed or lie in a range, and so does the set that is compiled from
them (`Contents.contains_toRangeSet`). A report is made from the contents; what it says depends on
the members of the set alone (`reports_matching`). That no report looks like another one rests on
the texts of addresses: they differ from each other, and no character of an address is a bracket or
has to be escaped.
-/

namespace NetRanges

variable {a b : Address} {foreign : Bool}

theorem Address.eq_of_text_eq (h : a.text = b.text) : a = b := by
  have hread := ofText?_text a
  rw [h, ofText?_text] at hread
  exact (Option.some.inj hread).symm

theorem Range.contains_single_iff : (single b).contains a false = true ↔ b = a := by
  rw [← Address.agrees_eq_contains, Address.agrees_self_iff]

/-! ## Texts in JSON -/

namespace Json

theorem escape_of_isAddressChar {c : Char} (h : Loose.isAddressChar c = true) :
    escape c = [c] := by
  have hrange := Loose.toNat_of_isAddressChar h
  unfold escape
  split
  · exact absurd h (by decide)
  · exact absurd h (by decide)
  · exact absurd h (by decide)
  · exact absurd h (by decide)
  · exact absurd h (by decide)
  · exact absurd h (by decide)
  · exact absurd h (by decide)
  · exact if_neg (by omega)

theorem quoted_text (a : Address) : quoted a.text = ['"'] ++ a.text ++ ['"'] := by
  have hescape : a.text.flatMap escape = a.text.flatMap fun c => [c] :=
    List.flatMap_congr fun c hc => escape_of_isAddressChar (a.isAddressChar_of_mem_text c hc)
  unfold quoted
  rw [hescape, List.flatMap_singleton']

theorem renderElements_map (vs : List Json) : renderElements vs = vs.map render := by
  induction vs with
  | nil => rfl
  | cons v vs ih => rw [renderElements, ih, List.map_cons]

/-- Nothing is escaped in an array of addresses. -/
theorem render_addresses (as : List Address) : (array (as.map fun a => .string a.text)).render =
    Text.bracketed (as.map fun a => ['"'] ++ a.text ++ ['"']) := by
  have hquoted : (render ∘ fun a : Address => string a.text) =
      fun a => ['"'] ++ a.text ++ ['"'] := funext quoted_text
  rw [render, renderElements_map, List.map_map, hquoted]
  rfl

end Json

namespace Loose

variable {c : Contents} {as : List Address} {t : Text}

/-! ## Contents and their set -/

namespace Contents

theorem contains_iff : contains c a foreign = true ↔
    a ∈ c.addresses ∨ ∃ r ∈ c.ranges, r.contains a foreign = true := by
  show (c.addresses.contains a || c.ranges.any fun r => r.contains a foreign) = true ↔ _
  rw [Bool.or_eq_true, List.contains_iff_mem, List.any_eq_true]

/-- The addresses of a batch are all looked up in the list before any range is asked. -/
theorem containsAny_iff : containsAny c as foreign = true ↔
    (∃ a ∈ as, a ∈ c.addresses) ∨ ∃ r ∈ c.ranges, ∃ a ∈ as, r.contains a foreign = true := by
  show (as.any (fun a => c.addresses.contains a) ||
    c.ranges.any fun r => as.any fun a => r.contains a foreign) = true ↔ _
  simp only [Bool.or_eq_true, List.any_eq_true, List.contains_iff_mem]

theorem containsAny_iff_exists :
    containsAny c as foreign = true ↔ ∃ a ∈ as, contains c a foreign = true := by
  simp only [containsAny_iff, contains_iff]
  constructor
  · rintro (⟨a, ha, hlisted⟩ | ⟨r, hr, a, ha, hin⟩)
    · exact ⟨a, ha, Or.inl hlisted⟩
    · exact ⟨a, ha, Or.inr ⟨r, hr, hin⟩⟩
  · rintro ⟨a, ha, hlisted | ⟨r, hr, hin⟩⟩
    · exact Or.inl ⟨a, ha, hlisted⟩
    · exact Or.inr ⟨r, hr, a, ha, hin⟩

theorem covered_map_single :
    Covered (as.map Range.single) a.family a.value ↔ a ∈ as := by
  rw [← Range.exists_contains_iff]
  constructor
  · rintro ⟨r, hr, hin⟩
    obtain ⟨b, hb, rfl⟩ := List.mem_map.mp hr
    exact Range.contains_single_iff.mp hin ▸ hb
  · intro ha
    exact ⟨_, List.mem_map_of_mem ha, Range.contains_single_iff.mpr rfl⟩

/-- The set of the contents has the same addresses. -/
theorem contains_toRangeSet : contains c.toRangeSet a false = contains c a false := by
  unfold toRangeSet
  rw [RangeSet.contains_ofRanges, Bool.eq_iff_iff, heldBy_false_iff, covered_append,
    covered_map_single, ← Range.exists_contains_iff, contains_iff]

theorem contains_of_isEmpty (h : c.isEmpty = true) : contains c a foreign = false := by
  obtain ⟨addresses, ranges⟩ := c
  obtain ⟨haddresses, hranges⟩ := Bool.and_eq_true_iff.mp h
  obtain rfl := List.isEmpty_iff.mp haddresses
  obtain rfl := List.isEmpty_iff.mp hranges
  rfl

end Contents

theorem Scanner.scan_of_blank (s : Scanner) (h : Text.Blank t) : s.scan t = ⟨[], []⟩ := by
  unfold scan
  rw [classifyAll_eq_map, Text.pieces_of_blank h]
  rfl

/-! ## Reports -/

/-- Those of some addresses that the set of the contents of a text holds, in the given order and
with repetitions. -/
def members (t : Text) (as : List Address) : List Address :=
  as.filter fun a => contains (contentsOf t).toRangeSet a false

/-- What an answer tells about the addresses that were found. -/
structure Reports (found : List Address) (answer : Option Text) : Prop where
  /-- There is no answer where nothing was found. -/
  none_iff : answer = none ↔ found = []
  /-- The bare text of an address stands for this address alone. -/
  text_iff : ∀ a, answer = some a.text ↔ found = [a]
  /-- Several addresses are a JSON array of their texts. -/
  several : 2 ≤ found.length →
    answer = some (Text.bracketed (found.map fun a => ['"'] ++ a.text ++ ['"']))

theorem text_ne_bracketed (ts : List Text) : a.text ≠ Text.bracketed ts := by
  intro h
  have hmem : '[' ∈ a.text := by
    rw [h]
    exact List.mem_cons_self ..
  exact absurd (a.isAddressChar_of_mem_text _ hmem) (by decide)

theorem reports_report (found : List Address) : Reports found (report found) := by
  match found with
  | [] => exact ⟨by simp [report], by simp [report], by simp⟩
  | [b] =>
    refine ⟨by simp [report], fun a => ?_, by simp⟩
    show some b.text = some a.text ↔ [b] = [a]
    rw [Option.some.injEq, List.singleton_inj]
    exact ⟨Address.eq_of_text_eq, congrArg Address.text⟩
  | a₁ :: a₂ :: rest =>
    -- The array starts with a bracket, so it is not taken for the text of an address.
    have hreport : report (a₁ :: a₂ :: rest) = some (Text.bracketed
        ((a₁ :: a₂ :: rest).map fun a => ['"'] ++ a.text ++ ['"'])) :=
      congrArg some (Json.render_addresses _)
    refine ⟨by simp [report], fun a => ?_, fun _ => hreport⟩
    rw [hreport, Option.some.injEq]
    exact ⟨fun h => absurd h.symm (text_ne_bracketed _), nofun⟩

/-- The shortcuts leave out only what would find nothing. -/
theorem matching_eq_report (t : Text) (as : List Address) :
    matching t as = report (as.filter fun a => contains (contentsOf t) a false) := by
  have hnone (h : ∀ a ∈ as, contains (contentsOf t) a false = false) :
      none = report (as.filter fun a => contains (contentsOf t) a false) := by
    rw [List.filter_eq_nil_iff.mpr fun a ha => by rw [h a ha]; exact Bool.false_ne_true]
    rfl
  unfold matching
  by_cases hshort : ((Text.trim t).isEmpty || as.isEmpty) = true
  · rw [if_pos hshort]
    apply hnone
    rcases Bool.or_eq_true_iff.mp hshort with htrim | has
    · have hblank := Text.trim_eq_nil_iff.mp (List.isEmpty_iff.mp htrim)
      have hempty : contentsOf t = ⟨[], []⟩ := Scanner.scan_of_blank {} hblank
      rw [hempty]
      exact fun a _ => rfl
    · rw [List.isEmpty_iff.mp has]
      exact nofun
  · rw [if_neg hshort]
    by_cases hempty : (contentsOf t).isEmpty = true
    · exact (if_pos hempty).trans (hnone fun a _ => Contents.contains_of_isEmpty hempty)
    · exact if_neg hempty

theorem reports_matching (t : Text) (as : List Address) : Reports (members t as) (matching t as) := by
  have hmembers : members t as = as.filter fun a => contains (contentsOf t) a false := by
    unfold members
    simp only [Contents.contains_toRangeSet]
  rw [matching_eq_report, hmembers]
  exact reports_report _

/-- **Contents, their set and reports.** Without a flag, contents hold the same addresses as the
set that is compiled from them. With either flag they answer a batch as the disjunction of its
single questions. The report for a text tells which of the given addresses are in the set. -/
theorem contents_agree_and_reports :
    (∀ (c : Contents) (a : Address), contains c a false = contains c.toRangeSet a false) ∧
      (∀ (c : Contents) (as : List Address) (foreign : Bool),
        containsAny c as foreign = true ↔ ∃ a ∈ as, contains c a foreign = true) ∧
      ∀ (t : Text) (as : List Address), Reports (members t as) (matching t as) :=
  ⟨fun _ _ => Contents.contains_toRangeSet.symm, fun _ _ _ => Contents.containsAny_iff_exists,
    reports_matching⟩

end Loose

end NetRanges
