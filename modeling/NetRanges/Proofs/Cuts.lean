import Mathlib.Data.List.Basic
import NetRanges.Text.Cut

/-!
# Where a text is cut

The parts of a cut and the separator between them make up the whole text (`append_of_cut?`), and a
separator is found wherever it stands (`holds_iff`). It is found at a given place if it does not
stand before it: if its first character does not (`cut?_of_not_mem`), or, for a doubled character,
if the character is neither doubled nor the last one before (`cut?_pair`). Joined texts that are not
empty never double the character that joins them (`holds_pair_joined`).
-/

namespace NetRanges.Text

variable {sep t before after : Text} {c s : Char} {ts : List Text}

theorem cut?_append (sep after : Text) : cut? sep (sep ++ after) = some ([], after) := by
  have h : sep.isPrefixOf? (sep ++ after) = some after :=
    List.isPrefixOf?_eq_some_iff_append_eq.mpr rfl
  generalize sep ++ after = t at h
  cases t with
  | nil =>
    rw [cut?, h]
    rfl
  | cons c t => rw [cut?, h]

theorem append_of_cut? (h : cut? sep t = some (before, after)) : t = before ++ sep ++ after := by
  induction t generalizing before with
  | nil =>
    simp only [cut?, Option.map_eq_some_iff, Prod.mk.injEq] at h
    obtain ⟨rest, hrest, rfl, rfl⟩ := h
    exact (List.isPrefixOf?_eq_some_iff_append_eq.mp hrest).symm
  | cons c t ih =>
    rw [cut?] at h
    split at h
    · rename_i rest hrest
      obtain ⟨rfl, rfl⟩ := Prod.mk.inj (Option.some.inj h)
      exact (List.isPrefixOf?_eq_some_iff_append_eq.mp hrest).symm
    · obtain ⟨⟨b, a⟩, hcut, hab⟩ := Option.map_eq_some_iff.mp h
      obtain ⟨rfl, rfl⟩ := Prod.mk.inj hab
      exact congrArg (c :: ·) (ih hcut)

theorem holds_append (sep before after : Text) : holds sep (before ++ sep ++ after) = true := by
  induction before with
  | nil =>
    unfold holds
    rw [List.nil_append, cut?_append]
    rfl
  | cons c before ih =>
    unfold holds at ih ⊢
    rw [List.cons_append, List.cons_append, cut?]
    split
    · rfl
    · rw [Option.isSome_map]
      exact ih

theorem holds_iff : holds sep t = true ↔ ∃ before after, t = before ++ sep ++ after := by
  constructor
  · intro h
    obtain ⟨⟨before, after⟩, hcut⟩ := Option.isSome_iff_exists.mp h
    exact ⟨before, after, append_of_cut? hcut⟩
  · rintro ⟨before, after, rfl⟩
    exact holds_append sep before after

/-! ## Cuts at a given place -/

/-- What does not stand at the start of a text is looked for in the rest. -/
theorem cut?_cons (h : ∀ rest, c :: t ≠ sep ++ rest) (hcut : cut? sep t = some (before, after)) :
    cut? sep (c :: t) = some (c :: before, after) := by
  have hstart : sep.isPrefixOf? (c :: t) = none := by
    rw [Option.eq_none_iff_forall_ne_some]
    intro rest hrest
    exact h rest (List.isPrefixOf?_eq_some_iff_append_eq.mp hrest).symm
  rw [cut?, hstart, hcut]
  rfl

theorem cut?_of_not_mem {rest : Text} (h : c ∉ before) (after : Text) :
    cut? (c :: rest) (before ++ c :: rest ++ after) = some (before, after) := by
  induction before with
  | nil => exact cut?_append (c :: rest) after
  | cons d before ih =>
    obtain ⟨hne, hbefore⟩ := List.ne_and_not_mem_of_not_mem_cons h
    refine cut?_cons (fun r hr => ?_) (ih hbefore)
    exact hne (List.cons.inj hr).1.symm

theorem cut?_pair (hpair : holds [c, c] before = false) (hlast : before.getLast? ≠ some c)
    (after : Text) : cut? [c, c] (before ++ [c, c] ++ after) = some (before, after) := by
  induction before with
  | nil => exact cut?_append [c, c] after
  | cons d before ih =>
    have hno (x y : Text) : d :: before ≠ x ++ [c, c] ++ y := by
      rintro heq
      rw [heq, holds_append] at hpair
      cases hpair
    have hpair' : holds [c, c] before = false := by
      rw [← Bool.not_eq_true, holds_iff]
      rintro ⟨x, y, rfl⟩
      exact hno (d :: x) y rfl
    have hlast' : before.getLast? ≠ some c := by
      cases before with
      | nil => nofun
      | cons e before => rwa [List.getLast?_cons_cons] at hlast
    refine cut?_cons (fun rest heq => ?_) (ih hpair' hlast')
    -- The pair would begin with the last character before its place, or stand there before.
    cases before with
    | nil =>
      obtain ⟨rfl, -⟩ := List.cons.inj heq
      exact hlast rfl
    | cons e before =>
      obtain ⟨rfl, htail⟩ := List.cons.inj heq
      obtain ⟨rfl, -⟩ := List.cons.inj htail
      exact hno [] before rfl

/-! ## Texts joined by a character -/

theorem nil_not_mem_splitOn_joined (hne : ts ≠ []) (hs : ∀ t ∈ ts, s ∉ t ∧ t ≠ []) :
    [] ∉ (List.intercalate [s] ts).splitOn s := by
  rw [List.splitOn_intercalate s (fun t ht => (hs t ht).1) hne]
  exact fun hnil => (hs [] hnil).2 rfl

theorem holds_pair_joined (hs : ∀ t ∈ ts, s ∉ t ∧ t ≠ []) :
    holds [s, s] (List.intercalate [s] ts) = false := by
  cases ts with
  | nil => rfl
  | cons t ts =>
    rw [← Bool.not_eq_true, holds_iff]
    rintro ⟨x, y, hxy⟩
    have hjoined : List.intercalate [s] (t :: ts) = x ++ s :: ([] ++ s :: y) := by simp [hxy]
    have hnil := nil_not_mem_splitOn_joined (List.cons_ne_nil t ts) hs
    rw [hjoined, List.splitOn_append_cons_self, List.splitOn_append_cons_self] at hnil
    exact hnil (by simp)

theorem getLast?_joined_ne (hs : ∀ t ∈ ts, s ∉ t ∧ t ≠ []) :
    (List.intercalate [s] ts).getLast? ≠ some s := by
  cases ts with
  | nil => nofun
  | cons t ts =>
    intro hlast
    obtain ⟨x, hx⟩ := List.getLast?_eq_some_iff.mp hlast
    have hnil := nil_not_mem_splitOn_joined (List.cons_ne_nil t ts) hs
    rw [hx, List.splitOn_append_cons_self] at hnil
    exact hnil (by simp)

end NetRanges.Text
