import NetRanges.Text.Blank

/-!
# Cutting a text at a separator

`cut? sep t` finds the first place where `sep` stands in `t` and returns the text before
it and the text after it. `pieces` lists what stands between commas, trimmed, without the
blank pieces.
-/

namespace NetRanges.Text

/-- The texts before and after the first place where `sep` stands. -/
def cut? (sep : Text) : Text → Option (Text × Text)
  | [] => (sep.isPrefixOf? []).map fun rest => ([], rest)
  | c :: t =>
    match sep.isPrefixOf? (c :: t) with
    | some rest => some ([], rest)
    | none => (cut? sep t).map fun (before, after) => (c :: before, after)

/-- Whether `sep` stands anywhere in `t`. -/
def holds (sep t : Text) : Bool :=
  (cut? sep t).isSome

/-- The trimmed texts between commas, blank ones left out. -/
def pieces (t : Text) : List Text :=
  ((t.splitOn ',').map trim).filter (!·.isEmpty)

/-- The texts joined by commas between square brackets. -/
def bracketed (ts : List Text) : Text :=
  ['['] ++ List.intercalate [','] ts ++ [']']

/-! ## Pieces and joined texts -/

theorem pieces_of_not_mem {t : Text} (hcomma : ',' ∉ t) (hne : trim t ≠ []) :
    pieces t = [trim t] := by
  have hempty : (trim t).isEmpty = false := List.isEmpty_eq_false_iff.mpr hne
  unfold pieces
  rw [List.splitOn_eq_singleton hcomma, List.map_singleton, List.filter_cons, hempty]
  rfl

theorem pieces_of_blank {t : Text} (h : Blank t) : pieces t = [] := by
  have hcomma : ',' ∉ t := fun hc => absurd (h ',' hc) (by decide)
  unfold pieces
  rw [List.splitOn_eq_singleton hcomma, List.map_singleton, trim_eq_nil_iff.mpr h]
  rfl

theorem mem_of_mem_intercalate {c s : Char} {ts : List Text}
    (h : c ∈ List.intercalate [s] ts) : c = s ∨ ∃ t ∈ ts, c ∈ t := by
  induction ts with
  | nil => cases h
  | cons t ts ih =>
    cases ts with
    | nil =>
      rw [List.intercalate_singleton] at h
      exact .inr ⟨t, by simp, h⟩
    | cons u ts =>
      rw [List.intercalate_cons_cons, List.append_assoc, List.mem_append, List.mem_append] at h
      rcases h with h | h | h
      · exact .inr ⟨t, by simp, h⟩
      · exact .inl (List.mem_singleton.mp h)
      · exact (ih h).imp_right fun ⟨v, hv, hcv⟩ => ⟨v, List.mem_cons_of_mem _ hv, hcv⟩

end NetRanges.Text
