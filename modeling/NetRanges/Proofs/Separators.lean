import NetRanges.Item.Basic
import NetRanges.Proofs.Cuts

/-!
# Where separators stand

A text is parted at an arrow, or if it has none, at the only one of the other separators. Here this
is said without the reader: a separator stands in a text (`<:+:`), stands there twice
(`Text.Repeats`), is the first one of those of one character (`IsFirst`), or is the one separator of
the text (`Parting.Divides`). What the reader does in each case follows from two facts: it cuts at
the first place (`Text.suffix_of_cut?`), and a separator that does not repeat has one place only
(`Separator.place_unique`).
-/

namespace NetRanges

/-! ## The first of a list -/

/-- Of the elements of a list, `a` is the first with the property. -/
inductive IsFirst {α : Type} (P : α → Prop) : List α → α → Prop
  | head {a : α} {as : List α} (h : P a) : IsFirst P (a :: as) a
  | cons {a b : α} {as : List α} (h : ¬ P a) (hb : IsFirst P as b) : IsFirst P (a :: as) b

namespace IsFirst

variable {α : Type} {P : α → Prop} {as bs : List α} {a b : α}

theorem property (h : IsFirst P as a) : P a := by
  induction h with
  | head h => exact h
  | cons _ _ ih => exact ih

theorem mem (h : IsFirst P as a) : a ∈ as := by
  induction h with
  | head h => exact List.mem_cons_self ..
  | cons _ _ ih => exact List.mem_cons_of_mem _ ih

theorem unique (h : IsFirst P as a) (h' : IsFirst P as b) : a = b := by
  induction h with
  | head h =>
    cases h' with
    | head _ => rfl
    | cons hn _ => exact absurd h hn
  | cons hn _ ih =>
    cases h' with
    | head h => exact absurd h hn
    | cons _ h' => exact ih h'

theorem congr {Q : α → Prop} (h : IsFirst P as a) (hPQ : ∀ b ∈ as, P b ↔ Q b) :
    IsFirst Q as a := by
  induction h with
  | head h => exact .head ((hPQ _ (List.mem_cons_self ..)).mp h)
  | cons hn _ ih =>
    rw [List.forall_mem_cons] at hPQ
    exact .cons (mt hPQ.1.mpr hn) (ih hPQ.2)

theorem append_right (h : IsFirst P as a) (bs : List α) : IsFirst P (as ++ bs) a := by
  induction h with
  | head h => exact .head h
  | cons hn _ ih => exact .cons hn ih

theorem append_left (h : ∀ a ∈ as, ¬ P a) (hb : IsFirst P bs b) : IsFirst P (as ++ bs) b := by
  induction as with
  | nil => exact hb
  | cons a as ih =>
    rw [List.forall_mem_cons] at h
    exact .cons h.1 (ih h.2)

theorem exists_of_mem (h : a ∈ as) (ha : P a) : ∃ b, IsFirst P as b := by
  induction as with
  | nil => cases h
  | cons c as ih =>
    by_cases hc : P c
    · exact ⟨c, .head hc⟩
    · rcases List.mem_cons.mp h with rfl | h
      · exact absurd ha hc
      · obtain ⟨b, hb⟩ := ih h
        exact ⟨b, .cons hc hb⟩

/-- The first element with a property is the head of all those with it. -/
theorem exists_filter_eq {p : α → Bool} (h : IsFirst (fun a => p a = true) as a) :
    ∃ rest, as.filter p = a :: rest := by
  induction h with
  | head h => exact ⟨_, List.filter_cons_of_pos h⟩
  | cons hn _ ih =>
    rw [List.filter_cons_of_neg hn]
    exact ih

/-- The first of some elements of a list is the first one in the list that is one of them. -/
theorem filter_iff {Q : α → Prop} [DecidablePred Q] :
    IsFirst P (as.filter fun b => decide (Q b)) a ↔ IsFirst (fun b => Q b ∧ P b) as a := by
  induction as with
  | nil => exact ⟨nofun, nofun⟩
  | cons b as ih =>
    by_cases hb : Q b
    · rw [List.filter_cons, if_pos (decide_eq_true hb)]
      constructor
      · rintro (hP | ⟨hn, h⟩)
        · exact .head ⟨hb, hP⟩
        · exact .cons (fun hP => hn hP.2) (ih.mp h)
      · rintro (hP | ⟨hn, h⟩)
        · exact .head hP.2
        · exact .cons (fun hP => hn ⟨hb, hP⟩) (ih.mpr h)
    · rw [List.filter_cons, if_neg (mt of_decide_eq_true hb), ih]
      constructor
      · exact fun h => .cons (fun hP => hb hP.1) h
      · rintro (hP | ⟨-, h⟩)
        · exact absurd hP.1 hb
        · exact h

end IsFirst

/-! ## Places of a separator -/

namespace Text

variable {sep t before after left right : Text}

/-- `sep` stands in the text twice, at places that do not overlap. -/
def Repeats (sep t : Text) : Prop :=
  ∃ between, sep ++ between ++ sep <:+: t

theorem holds_iff_isInfix : holds sep t = true ↔ sep <:+: t := by
  rw [holds_iff]
  constructor
  · rintro ⟨before, after, rfl⟩
    exact ⟨before, after, rfl⟩
  · rintro ⟨before, after, rfl⟩
    exact ⟨before, after, rfl⟩

theorem Repeats.isInfix (h : Repeats sep t) : sep <:+: t := by
  obtain ⟨between, h⟩ := h
  exact List.IsInfix.trans ⟨[], between ++ sep, by simp⟩ h

theorem repeats_append (before between after : Text) :
    Repeats sep (before ++ sep ++ (between ++ sep ++ after)) :=
  ⟨between, before, after, by simp⟩

/-- What follows a separator anywhere is the end of what follows its first place. -/
theorem suffix_of_cut? (h : cut? sep (before ++ sep ++ after) = some (left, right)) :
    after <:+ right := by
  induction before generalizing left with
  | nil =>
    -- The separator stands at the start, so nothing is before its first place.
    rw [List.nil_append, cut?_append] at h
    cases h
    exact List.suffix_refl _
  | cons c before ih =>
    rw [List.cons_append, List.cons_append, cut?] at h
    split at h
    · rename_i rest hrest
      cases h
      have hall : sep ++ right = c :: (before ++ sep ++ after) :=
        List.isPrefixOf?_eq_some_iff_append_eq.mp hrest
      refine List.suffix_of_suffix_length_le ⟨c :: (before ++ sep), by simp⟩
        (hall ▸ List.suffix_append sep right) ?_
      have hlen := congrArg List.length hall
      simp only [List.length_cons, List.length_append] at hlen
      omega
    · obtain ⟨⟨l, r⟩, hcut, heq⟩ := Option.map_eq_some_iff.mp h
      cases heq
      exact ih hcut

/-- A separator repeats if it stands again after its first place. -/
theorem repeats_iff_of_cut? (h : cut? sep t = some (left, right)) :
    Repeats sep t ↔ holds sep right = true := by
  rw [holds_iff]
  constructor
  · rintro ⟨between, before, after, rfl⟩
    have hsplit : before ++ (sep ++ between ++ sep) ++ after =
        before ++ sep ++ (between ++ sep ++ after) := by simp
    rw [hsplit] at h
    obtain ⟨rest, hrest⟩ := suffix_of_cut? h
    exact ⟨rest ++ between, after, by rw [← hrest]; simp⟩
  · rintro ⟨between, after, rfl⟩
    rw [append_of_cut? h]
    exact repeats_append left between after

end Text

namespace Separator

variable {s : Separator} {t a b a' b' d : Text}

/-- No separator overlaps itself. -/
theorem eq_nil_or_prefix (h : s.text ++ a = d ++ (s.text ++ b)) : d = [] ∨ s.text <+: d := by
  cases d with
  | nil => exact .inl rfl
  | cons c d =>
    right
    cases s with
    | arrow =>
      cases d with
      | nil => simp [text] at h
      | cons c' d =>
        simp only [text, List.cons_append, List.cons.injEq] at h
        obtain ⟨rfl, rfl, -⟩ := h
        exact ⟨d, rfl⟩
    | slash =>
      obtain ⟨rfl, -⟩ := List.cons.inj h
      exact ⟨d, rfl⟩
    | dash =>
      obtain ⟨rfl, -⟩ := List.cons.inj h
      exact ⟨d, rfl⟩
    | enDash =>
      obtain ⟨rfl, -⟩ := List.cons.inj h
      exact ⟨d, rfl⟩

theorem eq_nil_of_not_repeats (h : ¬ Text.Repeats s.text (a ++ d ++ s.text ++ b))
    (hd : s.text ++ a' = d ++ (s.text ++ b)) : d = [] := by
  rcases eq_nil_or_prefix hd with hnil | ⟨between, rfl⟩
  · exact hnil
  · refine absurd ?_ h
    have hsplit : a ++ (s.text ++ between) ++ s.text ++ b =
        a ++ s.text ++ (between ++ s.text ++ b) := by simp
    rw [hsplit]
    exact Text.repeats_append a between b

/-- A separator that does not repeat stands at one place. -/
theorem place_unique (h : t = a ++ s.text ++ b) (h' : t = a' ++ s.text ++ b')
    (honce : ¬ Text.Repeats s.text t) : a = a' ∧ b = b' := by
  have heq : a ++ (s.text ++ b) = a' ++ (s.text ++ b') := by
    rw [← List.append_assoc, ← List.append_assoc, ← h, ← h']
  rcases List.append_eq_append_iff.mp heq with ⟨d, rfl, hd⟩ | ⟨d, rfl, hd⟩
  · obtain rfl : d = [] := eq_nil_of_not_repeats (h' ▸ honce) hd
    simpa using hd
  · obtain rfl : d = [] := eq_nil_of_not_repeats (h ▸ honce) hd
    simpa using hd.symm

end Separator

/-! ## Partings by the places of separators -/

namespace Parting

variable {t : Text} {s k k' : Separator} {p q : Parting}

/-- The parting is at the one separator of the text: at an arrow that stands once, or at another
separator that stands once and is the only one. -/
structure Divides (p : Parting) (t : Text) : Prop where
  append_eq : t = p.left ++ p.separator.text ++ p.right
  once : ¬ Text.Repeats p.separator.text t
  alone : p.separator ≠ .arrow → ∀ s, s ≠ p.separator → ¬ s.text <:+: t

/-- Among the separators of one character, `k` is the first that stands in the text. -/
def FirstSign (k : Separator) (t : Text) : Prop :=
  IsFirst (fun s => s.text <:+: t) Separator.singles k

theorem only_of_repeats (h : Text.Repeats s.text t) :
    only s t = .error (.repeatedSeparator s t) := by
  obtain ⟨⟨left, right⟩, hcut⟩ :=
    Option.isSome_iff_exists.mp (Text.holds_iff_isInfix.mpr h.isInfix)
  unfold only
  rw [hcut]
  exact if_pos ((Text.repeats_iff_of_cut? hcut).mp h)

theorem only_of_once (h : t = p.left ++ p.separator.text ++ p.right)
    (honce : ¬ Text.Repeats p.separator.text t) : only p.separator t = .ok (some p) := by
  have hholds : Text.holds p.separator.text t = true :=
    Text.holds_iff.mpr ⟨p.left, p.right, h⟩
  obtain ⟨⟨left, right⟩, hcut⟩ := Option.isSome_iff_exists.mp hholds
  obtain ⟨rfl, rfl⟩ := Separator.place_unique (Text.append_of_cut? hcut) h honce
  unfold only
  rw [hcut]
  exact if_neg (mt (Text.repeats_iff_of_cut? hcut).mpr honce)

theorem mem_singles_iff : s ∈ Separator.singles ↔ s ≠ .arrow := by
  cases s <;> decide

theorem ofText_of_arrow (h : Separator.arrow.text <:+: t) : ofText t = only .arrow t :=
  if_pos (Text.holds_iff_isInfix.mpr h)

/-- The reader looks first at the first sign, and sees whether another one stands in the text. -/
theorem exists_filter_holds_eq (hk : FirstSign k t) :
    ∃ rest, Separator.singles.filter (fun s => Text.holds s.text t) = k :: rest ∧
      ∀ s, s ∈ rest ↔ s ≠ .arrow ∧ s ≠ k ∧ s.text <:+: t := by
  have hfirst : IsFirst (fun s => Text.holds s.text t = true) Separator.singles k := by
    simpa only [FirstSign, Text.holds_iff_isInfix] using hk
  obtain ⟨rest, hfilter⟩ := hfirst.exists_filter_eq
  have hnodup : (k :: rest).Nodup := hfilter ▸ List.Pairwise.filter _ (by decide)
  refine ⟨rest, hfilter, fun s => ?_⟩
  have hmem : s ∈ k :: rest ↔ s ∈ Separator.singles ∧ s.text <:+: t := by
    rw [← hfilter, List.mem_filter, Text.holds_iff_isInfix]
  rw [List.mem_cons, mem_singles_iff] at hmem
  constructor
  · intro hs
    have hstands := hmem.mp (.inr hs)
    refine ⟨hstands.1, ?_, hstands.2⟩
    rintro rfl
    exact (List.nodup_cons.mp hnodup).1 hs
  · rintro ⟨hs, hne, hstands⟩
    exact (hmem.mpr ⟨hs, hstands⟩).resolve_left hne

theorem ofText_of_repeats (harrow : ¬ Separator.arrow.text <:+: t) (hk : FirstSign k t)
    (h : Text.Repeats k.text t) : ofText t = .error (.repeatedSeparator k t) := by
  obtain ⟨rest, hfilter, -⟩ := exists_filter_holds_eq hk
  unfold ofText
  rw [if_neg (mt Text.holds_iff_isInfix.mp harrow), hfilter]
  cases rest with
  | nil => exact only_of_repeats h
  | cons s rest => simp only [only_of_repeats h]

theorem ofText_of_mixed (harrow : ¬ Separator.arrow.text <:+: t) (hk : FirstSign k t)
    (honce : ¬ Text.Repeats k.text t) (hs : s ≠ .arrow) (hne : s ≠ k) (h : s.text <:+: t) :
    ofText t = .error (.mixedSeparators t) := by
  obtain ⟨rest, hfilter, hrest⟩ := exists_filter_holds_eq hk
  obtain ⟨before, after, hall⟩ := hk.property
  have honly : only k t = .ok (some ⟨before, k, after⟩) :=
    only_of_once (p := ⟨before, k, after⟩) hall.symm honce
  unfold ofText
  rw [if_neg (mt Text.holds_iff_isInfix.mp harrow), hfilter]
  cases rest with
  | nil => exact absurd ((hrest s).mpr ⟨hs, hne, h⟩) List.not_mem_nil
  | cons s' rest => simp only [honly]

theorem ofText_of_none (h : ∀ s : Separator, ¬ s.text <:+: t) : ofText t = .ok none := by
  have hnone : Separator.singles.filter (fun s => Text.holds s.text t) = [] :=
    List.filter_eq_nil_iff.mpr fun s _ => mt Text.holds_iff_isInfix.mp (h s)
  unfold ofText
  rw [if_neg (mt Text.holds_iff_isInfix.mp (h .arrow)), hnone]

theorem Divides.firstSign (h : p.Divides t) (hs : p.separator ≠ .arrow) :
    FirstSign p.separator t := by
  obtain ⟨k, hk⟩ := IsFirst.exists_of_mem (P := fun s => s.text <:+: t) (mem_singles_iff.mpr hs)
    ⟨p.left, p.right, h.append_eq.symm⟩
  by_cases hne : k = p.separator
  · exact hne ▸ hk
  · exact absurd hk.property (h.alone hs k hne)

/-- A text is parted at its one separator. -/
theorem ofText_of_divides (h : p.Divides t) : ofText t = .ok (some p) := by
  have honly := only_of_once h.append_eq h.once
  by_cases hs : p.separator = .arrow
  · rw [hs] at honly
    unfold ofText
    rw [if_pos]
    · exact honly
    · exact Text.holds_iff.mpr ⟨p.left, p.right, hs ▸ h.append_eq⟩
  · obtain ⟨rest, hfilter, hrest⟩ := exists_filter_holds_eq (h.firstSign hs)
    have hnil : rest = [] := by
      refine List.eq_nil_iff_forall_not_mem.mpr fun s hmem => ?_
      obtain ⟨-, hne, hstands⟩ := (hrest s).mp hmem
      exact h.alone hs s hne hstands
    unfold ofText
    rw [if_neg (mt Text.holds_iff_isInfix.mp (h.alone hs .arrow (Ne.symm hs))), hfilter, hnil]
    exact honly

theorem Divides.unique (h : p.Divides t) (h' : q.Divides t) : p = q := by
  have heq := ofText_of_divides h
  rw [ofText_of_divides h'] at heq
  cases heq
  rfl

end Parting

end NetRanges
