import NetRanges.Proofs.CommandLines

/-!
# The lines of the output

A query that writes an address is answered by one line, since the text of an address has no line
break. Any other query is echoed as it is: the line breaks in it become line breaks of the output,
and only its last line is followed by the word that says what it is (`lines_output`). So the output
has one line for each query exactly as long as no echoed query has a line break
(`output_framed_iff`), and a line that says of an address outside the set that it is in it is a line
of an echoed query (`exists_echoed_of_forged`).
-/

namespace NetRanges

/-! ## Lines of a text -/

namespace Text

/-- The texts that line breaks end, in their order. -/
def lines (t : Text) : List Text :=
  (t.splitOn '\n').dropLast

variable {t u : Text}

theorem lines_append_break (t u : Text) : lines (t ++ '\n' :: u) = t.splitOn '\n' ++ lines u := by
  unfold lines
  rw [List.splitOn_append_cons_self, List.dropLast_append_of_ne_nil (List.splitOn_ne_nil _ _)]

theorem lines_of_not_mem (h : '\n' ∉ t) : lines t = [] := by
  rw [lines, List.splitOn_eq_singleton h]
  rfl

/-- A text without line breaks that follows another one only makes its last piece longer. -/
theorem exists_splitOn_append (t : Text) (hu : '\n' ∉ u) :
    ∃ v, (t ++ u).splitOn '\n' = lines t ++ [v ++ u] := by
  by_cases ht : '\n' ∈ t
  · -- The last line break of the text is the first one from its end.
    obtain ⟨after, before, h, hafter⟩ := List.eq_append_cons_of_mem (List.mem_reverse.mpr ht)
    obtain rfl : t = before.reverse ++ '\n' :: after.reverse := by
      rw [← List.reverse_reverse t, h, List.reverse_append, List.reverse_cons, List.append_assoc]
      rfl
    have hrest : '\n' ∉ after.reverse := mt List.mem_reverse.mp hafter
    refine ⟨after.reverse, ?_⟩
    rw [lines_append_break, lines_of_not_mem hrest, List.append_nil, List.append_assoc,
      List.cons_append, List.splitOn_append_cons_self,
      List.splitOn_eq_singleton (List.not_mem_append hrest hu)]
  · refine ⟨t, ?_⟩
    rw [lines_of_not_mem ht, List.splitOn_eq_singleton (List.not_mem_append ht hu)]
    rfl

theorem length_splitOn (t : Text) : (t.splitOn '\n').length = (lines t).length + 1 := by
  have hpos := List.length_pos_of_ne_nil (List.splitOn_ne_nil '\n' t)
  rw [lines, List.length_dropLast, Nat.sub_add_cancel hpos]

theorem lines_eq_nil_iff : lines t = [] ↔ '\n' ∉ t := by
  refine ⟨fun h ht => ?_, lines_of_not_mem⟩
  obtain ⟨before, after, rfl⟩ := List.append_of_mem ht
  rw [lines_append_break] at h
  exact List.splitOn_ne_nil _ _ (List.append_eq_nil_iff.mp h).1

end Text

namespace CommandLine

variable {ranges q t : Text} {queries : List Text} {s : RangeSet} {a : Address}

/-- The query is no address, so that it is written to the output as it is. -/
def Echoed (q : Text) : Prop :=
  Address.ofText? (Text.trim q) = none

/-- The output has one line for each query, in the order of the queries, and whatever address a line
says to be in the set, it is one of its addresses. -/
structure Framed (S : Set Address) (queries : List Text) (output : Text) : Prop where
  ended : (output.splitOn '\n').getLast? = some []
  answered : List.Forall₂ (fun q line => ∃ warning, Answers S q (line ++ ['\n'], warning)) queries
    (Text.lines output)
  mem_of_in : ∀ t a, t ++ "\tin".toList ∈ Text.lines output → Address.ofText? t = some a → a ∈ S

/-! ## What is written about one query -/

/-- The answer to a query without the line break that ends it. -/
def record (q : Text) : Verdict → Text
  | .address a held => a.text ++ if held then "\tin".toList else "\tout".toList
  | .invalid => q ++ "\tinvalid".toList

theorem outputLine_eq_record (q : Text) (v : Verdict) : outputLine q v = record q v ++ ['\n'] := by
  cases v with
  | invalid => exact (List.append_assoc q "\tinvalid".toList ['\n']).symm
  | address a held =>
    rw [outputLine_address, record, List.append_assoc]
    cases held <;> rfl

theorem break_not_mem_record_address (q : Text) (a : Address) (held : Bool) :
    '\n' ∉ record q (.address a held) := by
  have htext : '\n' ∉ a.text := fun h =>
    absurd (a.isAddressChar_of_mem_text '\n' h) (by decide)
  refine List.not_mem_append htext ?_
  cases held <;> decide

theorem record_of_echoed (h : Echoed q) : record q (verdict s q) = q ++ "\tinvalid".toList := by
  rw [verdict_eq_invalid_iff.mpr h]
  rfl

/-- Only an echoed query brings a line break into its answer. -/
theorem break_mem_record_iff : '\n' ∈ record q (verdict s q) ↔ Echoed q ∧ '\n' ∈ q := by
  by_cases hq : Echoed q
  · rw [record_of_echoed hq, List.mem_append, and_iff_right hq]
    exact or_iff_left (by decide)
  · cases hverdict : verdict s q with
    | invalid => exact absurd (verdict_eq_invalid_iff.mp hverdict) hq
    | address a held =>
      exact iff_of_false (break_not_mem_record_address q a held) fun h => hq h.1

theorem splitOn_record (h : Echoed q → '\n' ∉ q) :
    (record q (verdict s q)).splitOn '\n' = [record q (verdict s q)] :=
  List.splitOn_eq_singleton fun hmem => (break_mem_record_iff.mp hmem).elim h

theorem length_splitOn_record_eq_one_iff :
    ((record q (verdict s q)).splitOn '\n').length = 1 ↔ (Echoed q → '\n' ∉ q) := by
  rw [Text.length_splitOn, Nat.add_eq_right, List.length_eq_zero_iff, Text.lines_eq_nil_iff,
    break_mem_record_iff, not_and]

/-! ## What is written about all queries -/

theorem output_answers : (answers s queries).output =
    queries.flatMap fun q => record q (verdict s q) ++ ['\n'] := by
  simp only [answers, outputLine_eq_record]

/-- The lines of the output are those of the answers, one answer after the other. -/
theorem lines_output : Text.lines (answers s queries).output =
    queries.flatMap fun q => (record q (verdict s q)).splitOn '\n' := by
  rw [output_answers]
  induction queries with
  | nil => rfl
  | cons q queries ih =>
    rw [List.flatMap_cons, List.flatMap_cons, List.append_assoc, List.singleton_append,
      Text.lines_append_break, ih]

theorem getLast?_splitOn_output :
    ((answers s queries).output.splitOn '\n').getLast? = some [] := by
  rw [output_answers]
  induction queries with
  | nil => rfl
  | cons q queries ih =>
    rw [List.flatMap_cons, List.append_assoc, List.singleton_append,
      List.splitOn_append_cons_self, List.getLast?_append, ih]
    rfl

theorem length_lines_output (s : RangeSet) (queries : List Text) :
    queries.length ≤ (Text.lines (answers s queries).output).length ∧
      ((Text.lines (answers s queries).output).length = queries.length ↔
        ∀ q ∈ queries, Echoed q → '\n' ∉ q) := by
  rw [lines_output]
  induction queries with
  | nil => exact ⟨Nat.le_refl _, iff_of_true rfl nofun⟩
  | cons q queries ih =>
    obtain ⟨hle, heq⟩ := ih
    have hpos := List.length_pos_of_ne_nil (List.splitOn_ne_nil '\n' (record q (verdict s q)))
    rw [List.flatMap_cons, List.length_append, List.length_cons, List.forall_mem_cons, ← heq,
      ← length_splitOn_record_eq_one_iff (s := s)]
    omega

theorem append_in_ne {u word : Text} {c : Char} (hword : word.getLast? = some c) (hc : c ≠ 'n') :
    t ++ "\tin".toList ≠ u ++ word := by
  intro h
  have hlast := congrArg List.getLast? h
  rw [List.getLast?_append, List.getLast?_append, hword] at hlast
  exact hc (Option.some.inj hlast).symm

theorem eq_text_of_record {v : Verdict} (h : t ++ "\tin".toList = record q v) :
    ∃ a, v = .address a true ∧ t = a.text := by
  cases v with
  | invalid => exact absurd h (append_in_ne rfl (by decide))
  | address a held =>
    cases held with
    | false => exact absurd h (append_in_ne rfl (by decide))
    | true => exact ⟨a, rfl, List.append_cancel_right h⟩

/-- A line that says of an address outside the set that it is in it is a line of an echoed query. -/
theorem exists_echoed_of_forged (h : RangeSet.ofText ranges = .ok s)
    (hline : t ++ "\tin".toList ∈ Text.lines (answers s queries).output)
    (ht : Address.ofText? t = some a) (ha : a ∉ Held ranges) :
    ∃ q ∈ queries, Echoed q ∧ t ++ "\tin".toList ∈ Text.lines q := by
  rw [lines_output, List.mem_flatMap] at hline
  obtain ⟨q, hq, hline⟩ := hline
  by_cases hechoed : Echoed q
  · obtain ⟨v, hpieces⟩ := Text.exists_splitOn_append q (u := "\tinvalid".toList) (by decide)
    rw [record_of_echoed hechoed, hpieces, List.mem_append, List.mem_singleton] at hline
    rcases hline with hline | hline
    · exact ⟨q, hq, hechoed, hline⟩
    · exact absurd hline (append_in_ne rfl (by decide))
  · rw [splitOn_record fun h => absurd h hechoed, List.mem_singleton] at hline
    obtain ⟨b, hverdict, rfl⟩ := eq_text_of_record hline
    obtain rfl : b = a := Option.some.inj (b.ofText?_text.symm.trans ht)
    exact absurd ((contains_iff_mem_held h).mp (verdict_eq_address_iff.mp hverdict).2) ha

theorem lines_output_of_unbroken (h : ∀ q ∈ queries, Echoed q → '\n' ∉ q) :
    Text.lines (answers s queries).output = queries.map fun q => record q (verdict s q) := by
  rw [lines_output, List.map_eq_flatMap]
  exact List.flatMap_congr fun q hq => splitOn_record (h q hq)

/-- **One line for each query.** The output has one line for each query, and no line says of an
address outside the set that it is in it, exactly as long as no query that is echoed has a line
break in it; and such a line is always one of an echoed query, before its last line break. -/
theorem output_framed_iff (h : RangeSet.ofText ranges = .ok s) (queries : List Text) :
    (Framed (Held ranges) queries (run (ranges :: queries)).output ↔
      ∀ q ∈ queries, Echoed q → '\n' ∉ q) ∧
    ∀ t a, t ++ "\tin".toList ∈ Text.lines (run (ranges :: queries)).output →
      Address.ofText? t = some a → a ∉ Held ranges →
      ∃ q ∈ queries, Echoed q ∧ t ++ "\tin".toList ∈ Text.lines q := by
  have hrun : run (ranges :: queries) = answers s queries := by
    simp only [run, h]
  have hforged (t : Text) (a : Address)
      (hline : t ++ "\tin".toList ∈ Text.lines (answers s queries).output)
      (ht : Address.ofText? t = some a) (ha : a ∉ Held ranges) :
      ∃ q ∈ queries, Echoed q ∧ t ++ "\tin".toList ∈ Text.lines q :=
    exists_echoed_of_forged h hline ht ha
  rw [hrun]
  refine ⟨⟨fun hframed => ?_, fun hunbroken => ?_⟩, hforged⟩
  · exact (length_lines_output s queries).2.mp hframed.answered.length_eq.symm
  · refine ⟨getLast?_splitOn_output, ?_, fun t a hline ht => ?_⟩
    · rw [lines_output_of_unbroken hunbroken, List.forall₂_map_right_iff, List.forall₂_same]
      intro q _
      refine ⟨warning q (verdict s q), ?_⟩
      rw [← outputLine_eq_record]
      exact answers_verdict h q
    · by_contra ha
      obtain ⟨q, hq, hechoed, hmem⟩ := hforged t a hline ht ha
      rw [Text.lines_of_not_mem (hunbroken q hq hechoed)] at hmem
      exact absurd hmem List.not_mem_nil

/-- The range of the block `10.0.0.0/24`. -/
def lan : Range :=
  .spanning .v4 0x0A000000 0x0A0000FF

theorem ofText_lan : RangeSet.ofText "10.0.0.0/24".toList = .ok (.ofRanges [lan]) := by
  have hranges : Range.ofTexts (Text.pieces "10.0.0.0/24".toList) = .ok [lan] := by
    decide +kernel
  exact map_eq_ok_iff.mpr ⟨_, hranges, rfl⟩

/-- A query with line breaks around an address, and one that looks like an answer. -/
theorem output_framed_iff_of_padded :
    let ranges : Text := "10.0.0.0/24".toList
    let queries : List Text := ["\n10.0.0.5\n".toList, "9.9.9.9\tin".toList]
    (∃ s, RangeSet.ofText ranges = .ok s) ∧
      Framed (Held ranges) queries (run (ranges :: queries)).output := by
  intro ranges queries
  have hset : RangeSet.ofText ranges = .ok (.ofRanges [lan]) := ofText_lan
  have hunbroken : ∀ q ∈ queries, Echoed q → '\n' ∉ q := by
    intro q hq
    rcases List.mem_pair.mp hq with rfl | rfl
    · intro hechoed
      exact absurd hechoed (by unfold Echoed; decide +kernel)
    · exact fun _ => by decide
  exact ⟨⟨_, hset⟩, (output_framed_iff hset queries).1.mpr hunbroken⟩

/-- A query with a line break can add a line that says of an address outside the set that it is in
it. -/
theorem not_framed_of_line_break :
    let ranges : Text := "10.0.0.0/24".toList
    let query : Text := "9.9.9.9\tin\nx".toList
    let a : Address := .ofNat .v4 0x09090909
    (∃ s, RangeSet.ofText ranges = .ok s) ∧ a ∉ Held ranges ∧
      Text.lines (run [ranges, query]).output = [a.text ++ "\tin".toList, "x\tinvalid".toList] ∧
      ¬Framed (Held ranges) [query] (run [ranges, query]).output := by
  intro ranges query a
  have hset : RangeSet.ofText ranges = .ok (.ofRanges [lan]) := ofText_lan
  have ha : a ∉ Held ranges := by
    rw [← contains_iff_mem_held hset, RangeSet.contains_ofRanges]
    decide
  have hechoed : Echoed query := by
    unfold Echoed
    decide +kernel
  have hlines : Text.lines (run [ranges, query]).output =
      [a.text ++ "\tin".toList, "x\tinvalid".toList] := by
    have hrun : run [ranges, query] = answers (.ofRanges [lan]) [query] := by
      simp only [run, hset]
    rw [hrun, lines_output, List.flatMap_singleton, record_of_echoed hechoed]
    decide +kernel
  refine ⟨⟨_, hset⟩, ha, hlines, fun hframed => ha (hframed.mem_of_in a.text a ?_ a.ofText?_text)⟩
  rw [hlines]
  exact List.mem_cons_self ..

end CommandLine

end NetRanges
