import NetRanges.CommandLine
import NetRanges.Proofs.RangeSets
import NetRanges.Proofs.Runs

/-!
# What the command line reports

The first argument lists ranges, and what the program says about the others depends on nothing but
the addresses in them (`Held`): each query gets one line, in the order of the queries
(`Answers`), and the error output has the number of runs of these addresses. If an item of the
list is refused, nothing is answered and the error output has the reason for the first such item.
-/

namespace NetRanges.CommandLine

variable {ranges q : Text} {s : RangeSet} {a : Address}

/-- An item of the list that is not blank and is no range. -/
def Refused (p : Text) : Prop :=
  ¬Text.Blank p ∧ ∃ e, Range.ofText p = .error e

/-- The addresses in the range of some item of the list. -/
def Held (ranges : Text) : Set Address :=
  {a | ∃ p ∈ ranges.splitOn ',', ∃ r, Range.ofText p = .ok r ∧ r.contains a false = true}

/-- What is written about a query to the output and to the error output, when `S` are the addresses
that are held. -/
inductive Answers (S : Set Address) (q : Text) : Text × Text → Prop
  | inside {a : Address} (h : Address.ofText? (Text.trim q) = some a) (ha : a ∈ S) :
      Answers S q (a.text ++ "\tin\n".toList, [])
  | outside {a : Address} (h : Address.ofText? (Text.trim q) = some a) (ha : a ∉ S) :
      Answers S q (a.text ++ "\tout\n".toList, [])
  | invalid (h : Address.ofText? (Text.trim q) = none) :
      Answers S q (q ++ "\tinvalid\n".toList,
        "Not an IP address: ".toList ++ Error.quoted q ++ ['\n'])

/-- The set that is read from the list was made of ranges with the addresses that are held. -/
theorem exists_ofRanges_of_ofText (h : RangeSet.ofText ranges = .ok s) :
    ∃ rs, s = .ofRanges rs ∧ ∀ a, a ∈ Held ranges ↔ Covered rs a.family a.value := by
  have hread (r : Range) := RangeSet.mem_ranges_of_ofText (r := r) h
  rw [RangeSet.ofText_eq] at h
  obtain ⟨rs, -, rfl⟩ := map_eq_ok_iff.mp h
  refine ⟨rs, rfl, fun a => ?_⟩
  simp only [RangeSet.mem_ranges] at hread
  rw [← Range.exists_contains_iff]
  constructor
  · rintro ⟨p, hp, r, hr, ha⟩
    exact ⟨r, (hread r).mpr ⟨p, hp, hr⟩, ha⟩
  · rintro ⟨r, hr, ha⟩
    obtain ⟨p, hp, hr⟩ := (hread r).mp hr
    exact ⟨p, hp, r, hr, ha⟩

theorem contains_iff_mem_held (h : RangeSet.ofText ranges = .ok s) :
    contains s a false = true ↔ a ∈ Held ranges := by
  obtain ⟨rs, rfl, hheld⟩ := exists_ofRanges_of_ofText h
  rw [hheld, RangeSet.contains_ofRanges, heldBy_false_iff]

theorem length_joined (h : RangeSet.ofText ranges = .ok s) :
    s.joined.length = {r | IsRun (Held ranges) r}.ncard := by
  obtain ⟨rs, rfl, hheld⟩ := exists_ofRanges_of_ofText h
  exact (RangeSet.ncard_runs hheld).symm

theorem verdict_eq_address_iff {held : Bool} : verdict s q = .address a held ↔
    Address.ofText? (Text.trim q) = some a ∧ contains s a false = held := by
  unfold verdict
  cases Address.ofText? (Text.trim q) with
  | none => exact ⟨nofun, fun h => nomatch h.1⟩
  | some b =>
    simp only [Verdict.address.injEq, Option.some.injEq]
    refine and_congr_right ?_
    rintro rfl
    rfl

theorem verdict_eq_invalid_iff :
    verdict s q = .invalid ↔ Address.ofText? (Text.trim q) = none := by
  unfold verdict
  cases Address.ofText? (Text.trim q) with
  | none => exact iff_of_true rfl rfl
  | some b => exact iff_of_false nofun nofun

theorem outputLine_address (q : Text) (a : Address) (held : Bool) :
    outputLine q (.address a held) =
      a.text ++ if held then "\tin\n".toList else "\tout\n".toList := by
  cases held with
  | true => exact (List.append_assoc ..).trans (List.append_assoc ..)
  | false => exact (List.append_assoc ..).trans (List.append_assoc ..)

/-- What is written about a query is right about the addresses that are held. -/
theorem answers_verdict (h : RangeSet.ofText ranges = .ok s) (q : Text) :
    Answers (Held ranges) q (outputLine q (verdict s q), warning q (verdict s q)) := by
  cases hverdict : verdict s q with
  | invalid => exact .invalid (verdict_eq_invalid_iff.mp hverdict)
  | address a held =>
    obtain ⟨haddress, hheld⟩ := verdict_eq_address_iff.mp hverdict
    rw [outputLine_address]
    cases held with
    | true => exact .inside haddress ((contains_iff_mem_held h).mp hheld)
    | false =>
      refine .outside haddress (mt (contains_iff_mem_held h).mpr ?_)
      rw [hheld]
      nofun

theorem forall₂_answers (h : RangeSet.ofText ranges = .ok s) (queries : List Text) :
    List.Forall₂ (Answers (Held ranges)) queries
      (queries.map fun q => (outputLine q (verdict s q), warning q (verdict s q))) := by
  induction queries with
  | nil => exact .nil
  | cons q queries ih => exact .cons (answers_verdict h q) ih

theorem exists_ofText_iff : (∃ s, RangeSet.ofText ranges = .ok s) ↔
    ¬∃ p ∈ ranges.splitOn ',', Refused p := by
  rw [RangeSet.exists_ofText_iff, not_exists]
  refine forall_congr' fun p => ?_
  have hread : (∃ r, Range.ofText p = .ok r) ↔ ¬∃ e, Range.ofText p = .error e := by
    cases Range.ofText p with
    | ok r => exact iff_of_true ⟨r, rfl⟩ nofun
    | error e => exact iff_of_false nofun fun h => h ⟨e, rfl⟩
  rw [Refused, not_and, not_and, hread]

theorem exists_ofText_eq_error (h : ∃ p ∈ ranges.splitOn ',', Refused p) :
    ∃ p e, IsFirst Refused (ranges.splitOn ',') p ∧ Range.ofText p = .error e ∧
      RangeSet.ofText ranges = .error e := by
  obtain ⟨p, hp, hrefused⟩ := h
  obtain ⟨p, hfirst⟩ := IsFirst.exists_of_mem hp hrefused
  obtain ⟨-, e, he⟩ := hfirst.property
  exact ⟨p, e, hfirst, he, RangeSet.ofText_eq_error_iff.mpr ⟨p, he, hfirst⟩⟩

/-- **The command line.** Without arguments, and if an item of the list is refused, the program
fails and its output is empty; what it says then is the reason for which the first such item is
refused. Otherwise it succeeds and answers the queries in their order, each by whether its address
is in the range of some item, and it says into how many runs all these addresses fall. -/
theorem run_reports_membership :
    ((run []).status = 1 ∧ (run []).output = []) ∧
    ∀ (ranges : Text) (queries : List Text),
      ((∃ p ∈ ranges.splitOn ',', Refused p) →
        ∃ p e, IsFirst Refused (ranges.splitOn ',') p ∧ Range.ofText p = .error e ∧
          (run (ranges :: queries)).status = 1 ∧ (run (ranges :: queries)).output = [] ∧
          (run (ranges :: queries)).errors = e.message ++ ['\n']) ∧
      ((¬∃ p ∈ ranges.splitOn ',', Refused p) →
        ∃ s answers, RangeSet.ofText ranges = .ok s ∧
          List.Forall₂ (Answers (Held ranges)) queries answers ∧
          (run (ranges :: queries)).status = 0 ∧
          (run (ranges :: queries)).output = answers.flatMap Prod.fst ∧
          (run (ranges :: queries)).errors =
            "Ranges: ".toList ++ s.text ++ "\nMerged: ".toList ++
              Numeral.write 10 {r | IsRun (Held ranges) r}.ncard ++ ['\n'] ++
              answers.flatMap Prod.snd) := by
  refine ⟨⟨rfl, rfl⟩, fun ranges queries => ⟨fun hrefused => ?_, fun hread => ?_⟩⟩
  · obtain ⟨p, e, hfirst, hp, herror⟩ := exists_ofText_eq_error hrefused
    have hrun : run (ranges :: queries) = .failure e.message := by
      simp only [run, herror]
    rw [hrun]
    exact ⟨p, e, hfirst, hp, rfl, rfl, rfl⟩
  · obtain ⟨s, hs⟩ := exists_ofText_iff.mpr hread
    have hrun : run (ranges :: queries) = answers s queries := by
      simp only [run, hs]
    refine ⟨s, _, hs, forall₂_answers hs queries, ?_, ?_, ?_⟩
    · rw [hrun]
      rfl
    · rw [hrun, List.flatMap_map]
      rfl
    · rw [hrun, List.flatMap_map, ← length_joined hs]
      rfl

/-- A list whose third item is refused, and one with a blank item. -/
theorem run_reports_membership_of_three_items :
    let bad : Text := "10.0.0.1, ,x".toList
    let good : Text := "10.0.0.0/31,,10.0.0.2".toList
    (∃ p e, IsFirst Refused (bad.splitOn ',') p ∧ Range.ofText p = .error e ∧
      (run [bad]).errors = e.message ++ ['\n']) ∧
    ∃ answers, List.Forall₂ (Answers (Held good)) [" 10.0.0.1".toList, "z".toList] answers ∧
      (run [good, " 10.0.0.1".toList, "z".toList]).output = answers.flatMap Prod.fst := by
  intro bad good
  have hbad : ∃ p ∈ bad.splitOn ',', Refused p :=
    ⟨['x'], by decide, mt Text.trim_eq_nil_iff.mpr (by decide), _, rfl⟩
  have hranges : Range.ofTexts (Text.pieces good) =
      .ok [.spanning .v4 0x0A000000 0x0A000001, .spanning .v4 0x0A000002 0x0A000002] := by
    decide +kernel
  have hgood : ¬∃ p ∈ good.splitOn ',', Refused p :=
    exists_ofText_iff.mp ⟨_, map_eq_ok_iff.mpr ⟨_, hranges, rfl⟩⟩
  obtain ⟨p, e, hfirst, hp, -, -, herrors⟩ := (run_reports_membership.2 bad []).1 hbad
  obtain ⟨s, answers, -, hanswers, -, houtput, -⟩ := (run_reports_membership.2 good _).2 hgood
  exact ⟨⟨p, e, hfirst, hp, herrors⟩, answers, hanswers, houtput⟩

end NetRanges.CommandLine
