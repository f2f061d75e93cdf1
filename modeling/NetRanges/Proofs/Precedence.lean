import NetRanges.Proofs.Grammar

/-!
# Why an item is refused

A text may break several of the rules for items. `Item.Rule.all` has the rules in the order in which
they are checked, and `Item.Gives` says which error each of them gives for which texts. A text that
writes no item is refused with the error of the first rule that applies to it
(`Item.ofText_refuses_first`). The first rules are about the separators of the text; the others are
about the two sides of the one separator, so a rule means the same for every parting of the text
(`Item.gives_iff`).
-/

namespace NetRanges

namespace Address

theorem ofTextOr_eq_error_iff {refusal e : Error} {t : Text} :
    ofTextOr refusal t = .error e ↔ ofText? t = none ∧ e = refusal := by
  unfold ofTextOr
  cases ofText? t with
  | some a => simp
  | none => simp [eq_comm]

end Address

theorem Range.between_eq_error_iff {a b : Address} {e : Error} :
    between a b = .error e ↔ a.family ≠ b.family ∧ e = .familyMismatch a b := by
  unfold between
  by_cases h : a.family = b.family
  · simp [h]
  · simp [h, eq_comm]

theorem Block.eq_of_ofText_eq_error {t : Text} {e : Error} (h : ofText t = .error e) :
    e = .invalidPrefix (Text.trim t) := by
  unfold ofText at h
  simp only at h
  split at h
  · cases h
  · cases h
    rfl

namespace Item

/-! ## The rules -/

/-- What is asked of a text that writes an item. -/
inductive Rule where
  /-- There is something else than blanks. -/
  | text
  /-- An arrow stands only once. -/
  | arrowOnce
  /-- Without an arrow, the first separator of one character stands only once. -/
  | signOnce
  /-- Without an arrow, no other separator stands beside the first one. -/
  | oneKind
  /-- A text without a separator is an address. -/
  | address
  /-- There is something on both sides of the separator. -/
  | sides
  /-- A slash before digits stands between an address and a number of its bits. -/
  | prefixLength
  /-- The left side is an address. -/
  | lower
  /-- The right side is an address. -/
  | upper
  /-- Both sides are of one family. -/
  | family
deriving DecidableEq

namespace Rule

/-- The rules about the separators of a text. -/
def ofSeparators : List Rule :=
  [arrowOnce, signOnce, oneKind]

/-- The rules about the sides of the one separator. -/
def ofSides : List Rule :=
  [sides, prefixLength, lower, upper, family]

/-- All rules, in the order in which they are checked. -/
def all : List Rule :=
  text :: (ofSeparators ++ address :: ofSides)

theorem not_mem_ofSides {r : Rule} (h : r ∈ ofSeparators) : r ∉ ofSides := by
  revert h
  cases r <;> decide

end Rule

/-- The error that a rule about the sides gives for a parting of the text. The rule for prefix
lengths leaves out that the text may write a block: it is asked of texts that write nothing. -/
inductive GivesAt (t : Text) (p : Parting) : Rule → Error → Prop
  | sides (h : Text.trim p.left = [] ∨ Text.trim p.right = []) : GivesAt t p .sides (.emptySide t)
  | prefixLength (hslash : p.separator = .slash)
      (h : ∀ c ∈ Text.trim p.right, c.isDigit = true) : GivesAt t p .prefixLength (.invalidPrefix t)
  | lower (h : Address.ofText? (Text.trim p.left) = none) :
      GivesAt t p .lower (.invalidLower (Text.trim p.left))
  | upper (h : Address.ofText? (Text.trim p.right) = none) :
      GivesAt t p .upper (.invalidUpper (Text.trim p.right))
  | family {a b : Address} (ha : Address.ofText? (Text.trim p.left) = some a)
      (hb : Address.ofText? (Text.trim p.right) = some b) (h : a.family ≠ b.family) :
      GivesAt t p .family (.familyMismatch a b)

/-- The error that a rule gives for a trimmed text that it applies to. -/
inductive Gives (t : Text) : Rule → Error → Prop
  | text (h : t = []) : Gives t .text .emptyInput
  | arrowOnce (h : Text.Repeats Separator.arrow.text t) :
      Gives t .arrowOnce (.repeatedSeparator .arrow t)
  | signOnce {k : Separator} (harrow : ¬ Separator.arrow.text <:+: t)
      (hk : Parting.FirstSign k t) (h : Text.Repeats k.text t) :
      Gives t .signOnce (.repeatedSeparator k t)
  | oneKind {k s : Separator} (harrow : ¬ Separator.arrow.text <:+: t)
      (hk : Parting.FirstSign k t) (honce : ¬ Text.Repeats k.text t) (hs : s ≠ .arrow)
      (hne : s ≠ k) (h : s.text <:+: t) : Gives t .oneKind (.mixedSeparators t)
  | address (h : ∀ s : Separator, ¬ s.text <:+: t) : Gives t .address (.invalidAddress t)
  | side {p : Parting} {r : Rule} {e : Error} (hp : p.Divides t) (h : GivesAt t p r e) : Gives t r e

/-- The rule gives an error for this parting of the text. -/
def AppliesAt (t : Text) (p : Parting) (r : Rule) : Prop :=
  ∃ e, GivesAt t p r e

/-- The rule gives an error for the text. -/
def Applies (t : Text) (r : Rule) : Prop :=
  ∃ e, Gives t r e

/-- The error is given by the first rule that applies to the text. -/
def FirstGives (t : Text) (e : Error) : Prop :=
  ∃ r, IsFirst (Applies t) Rule.all r ∧ Gives t r e

variable {s t left right : Text} {p : Parting} {r : Rule} {e e' : Error}

/-! ## One error for each text -/

theorem GivesAt.mem_ofSides (h : GivesAt t p r e) : r ∈ Rule.ofSides := by
  cases h <;> decide

theorem GivesAt.unique (h : GivesAt t p r e) (h' : GivesAt t p r e') : e = e' := by
  cases h with
  | sides h => cases h'; rfl
  | prefixLength hslash h => cases h'; rfl
  | lower h => cases h'; rfl
  | upper h => cases h'; rfl
  | family ha hb h =>
    cases h' with
    | family ha' hb' h' =>
      cases ha.symm.trans ha'
      cases hb.symm.trans hb'
      rfl

/-- The rules about the sides are about the one parting of the text. -/
theorem gives_iff (hp : p.Divides t) (hr : r ∈ Rule.ofSides) : Gives t r e ↔ GivesAt t p r e := by
  constructor
  · intro h
    cases h with
    | side hq h =>
      obtain rfl := hp.unique hq
      exact h
    | text h => exact absurd hr (by decide)
    | arrowOnce h => exact absurd hr (by decide)
    | signOnce harrow hk h => exact absurd hr (by decide)
    | oneKind harrow hk honce hs hne h => exact absurd hr (by decide)
    | address h => exact absurd hr (by decide)
  · exact .side hp

theorem Gives.unique (h : Gives t r e) (h' : Gives t r e') : e = e' := by
  cases h with
  | side hp h => exact h.unique ((gives_iff hp h.mem_ofSides).mp h')
  | text h =>
    cases h' with
    | text h' => rfl
    | side hp h' => nomatch h'
  | arrowOnce h =>
    cases h' with
    | arrowOnce h' => rfl
    | side hp h' => nomatch h'
  | signOnce harrow hk h =>
    cases h' with
    | signOnce harrow' hk' h' =>
      obtain rfl := IsFirst.unique hk hk'
      rfl
    | side hp h' => nomatch h'
  | oneKind harrow hk honce hs hne h =>
    cases h' with
    | oneKind harrow' hk' honce' hs' hne' h' => rfl
    | side hp h' => nomatch h'
  | address h =>
    cases h' with
    | address h' => rfl
    | side hp h' => nomatch h'

theorem FirstGives.unique (h : FirstGives t e) (h' : FirstGives t e') : e = e' := by
  obtain ⟨r, hfirst, hr⟩ := h
  obtain ⟨r', hfirst', hr'⟩ := h'
  obtain rfl := hfirst.unique hfirst'
  exact hr.unique hr'

/-! ## The rules about separators -/

theorem applies_text_iff : Applies t .text ↔ t = [] := by
  constructor
  · rintro ⟨e, h⟩
    cases h with
    | text h => exact h
    | side hp h => nomatch h
  · exact fun h => ⟨_, .text h⟩

theorem Gives.parting_eq (h : Gives t r e) (hr : r ∈ Rule.ofSeparators) :
    Parting.ofText t = .error e := by
  cases h with
  | arrowOnce h =>
    rw [Parting.ofText_of_arrow h.isInfix]
    exact Parting.only_of_repeats h
  | signOnce harrow hk h => exact Parting.ofText_of_repeats harrow hk h
  | oneKind harrow hk honce hs hne h => exact Parting.ofText_of_mixed harrow hk honce hs hne h
  | text h => exact absurd hr (by decide)
  | address h => exact absurd hr (by decide)
  | side hp h => exact absurd h.mem_ofSides (Rule.not_mem_ofSides hr)

/-- A text that is parted, or needs no parting, keeps the rules about separators. -/
theorem not_applies_of_parting {o : Option Parting} (h : Parting.ofText t = .ok o) :
    ∀ r ∈ Rule.ofSeparators, ¬ Applies t r := by
  rintro r hr ⟨e, hgives⟩
  rw [hgives.parting_eq hr] at h
  cases h

/-- A text breaks one of the rules about separators, has no separator, or is divided by the only
one it has. -/
theorem parting_cases (t : Text) :
    (∃ r ∈ Rule.ofSeparators, Applies t r) ∨ (∀ s : Separator, ¬ s.text <:+: t) ∨
      ∃ p : Parting, p.Divides t := by
  by_cases harrow : Separator.arrow.text <:+: t
  · by_cases hrepeats : Text.Repeats Separator.arrow.text t
    · exact .inl ⟨.arrowOnce, by decide, _, .arrowOnce hrepeats⟩
    · obtain ⟨left, right, hall⟩ := harrow
      exact .inr (.inr ⟨⟨left, .arrow, right⟩, hall.symm, hrepeats, fun h => absurd rfl h⟩)
  by_cases hsome : ∃ s : Separator, s.text <:+: t
  case neg => exact .inr (.inl fun s hs => hsome ⟨s, hs⟩)
  have hsingle : ∀ s : Separator, s.text <:+: t → s ≠ .arrow := by
    rintro s hs rfl
    exact harrow hs
  obtain ⟨s, hs⟩ := hsome
  obtain ⟨k, hk⟩ : ∃ k, Parting.FirstSign k t :=
    IsFirst.exists_of_mem (Parting.mem_singles_iff.mpr (hsingle s hs)) hs
  by_cases hrepeats : Text.Repeats k.text t
  · exact .inl ⟨.signOnce, by decide, _, .signOnce harrow hk hrepeats⟩
  by_cases hother : ∃ s : Separator, s ≠ k ∧ s.text <:+: t
  · obtain ⟨s, hne, hs⟩ := hother
    exact .inl ⟨.oneKind, by decide, _, .oneKind harrow hk hrepeats (hsingle s hs) hne hs⟩
  · obtain ⟨left, right, hall⟩ := hk.property
    exact .inr (.inr ⟨⟨left, k, right⟩, hall.symm, hrepeats,
      fun _ s hne hs => hother ⟨s, hne, hs⟩⟩)

/-! ## The rules about the sides -/

theorem appliesAt_sides_iff :
    AppliesAt t p .sides ↔ Text.trim p.left = [] ∨ Text.trim p.right = [] := by
  constructor
  · rintro ⟨e, h⟩
    cases h with
    | sides h => exact h
  · exact fun h => ⟨_, .sides h⟩

theorem appliesAt_prefixLength_iff : AppliesAt t p .prefixLength ↔
    p.separator = .slash ∧ ∀ c ∈ Text.trim p.right, c.isDigit = true := by
  constructor
  · rintro ⟨e, h⟩
    cases h with
    | prefixLength hslash h => exact ⟨hslash, h⟩
  · exact fun h => ⟨_, .prefixLength h.1 h.2⟩

theorem appliesAt_lower_iff :
    AppliesAt t p .lower ↔ Address.ofText? (Text.trim p.left) = none := by
  constructor
  · rintro ⟨e, h⟩
    cases h with
    | lower h => exact h
  · exact fun h => ⟨_, .lower h⟩

theorem appliesAt_upper_iff :
    AppliesAt t p .upper ↔ Address.ofText? (Text.trim p.right) = none := by
  constructor
  · rintro ⟨e, h⟩
    cases h with
    | upper h => exact h
  · exact fun h => ⟨_, .upper h⟩

/-- What the reader looks at to see a prefix length behind a slash. -/
theorem slash_and_isDecimal_iff (h : right ≠ []) :
    (decide (p.separator = .slash) && Numeral.isDecimal right) = true ↔
      p.separator = .slash ∧ ∀ c ∈ right, c.isDigit = true := by
  rw [Bool.and_eq_true, decide_eq_true_iff, Numeral.isDecimal, Bool.and_eq_true, List.all_eq_true,
    Bool.not_eq_true', List.isEmpty_eq_false_iff]
  simp only [h, ne_eq, not_false_eq_true, true_and]

theorem bounds_eq_error_iff : bounds left right = .error e ↔
    (Address.ofText? left = none ∧ e = .invalidLower left) ∨
      ∃ a, Address.ofText? left = some a ∧
        ((Address.ofText? right = none ∧ e = .invalidUpper right) ∨
          ∃ b, Address.ofText? right = some b ∧ a.family ≠ b.family ∧
            e = .familyMismatch a b) := by
  unfold bounds
  simp only [bind, bind_eq_error_iff, Address.ofTextOr_eq_error_iff, Address.ofTextOr_eq_ok_iff,
    Range.between_eq_error_iff]

theorem first_of_bounds_eq_error
    (h : bounds (Text.trim p.left) (Text.trim p.right) = .error e) :
    ∃ r, IsFirst (AppliesAt t p) [.lower, .upper, .family] r ∧ GivesAt t p r e := by
  rcases bounds_eq_error_iff.mp h with ⟨hleft, rfl⟩ | ⟨a, ha, h⟩
  · exact ⟨.lower, .head ⟨_, .lower hleft⟩, .lower hleft⟩
  · have hlower : ¬ AppliesAt t p .lower := by
      rw [appliesAt_lower_iff, ha]
      exact Option.some_ne_none a
    rcases h with ⟨hb, rfl⟩ | ⟨b, hb, hfam, rfl⟩
    · exact ⟨.upper, .cons hlower (.head ⟨_, .upper hb⟩), .upper hb⟩
    · have hupper : ¬ AppliesAt t p .upper := by
        rw [appliesAt_upper_iff, hb]
        exact Option.some_ne_none b
      have hfamily : GivesAt t p .family (.familyMismatch a b) := .family ha hb hfam
      exact ⟨.family, .cons hlower (.cons hupper (.head ⟨_, hfamily⟩)), hfamily⟩

/-- A parted text that writes no range breaks one of the rules about the sides, and gets the error
of the first one. -/
theorem first_of_ofParting_eq_error (ht : Text.trim t = t) (h : ofParting t p = .error e) :
    ∃ r, IsFirst (AppliesAt t p) Rule.ofSides r ∧ GivesAt t p r e := by
  unfold ofParting at h
  simp only at h
  split at h
  · rename_i hempty
    rw [Bool.or_eq_true, List.isEmpty_iff, List.isEmpty_iff] at hempty
    cases h
    exact ⟨.sides, .head ⟨_, .sides hempty⟩, .sides hempty⟩
  · rename_i hempty
    rw [Bool.or_eq_true, List.isEmpty_iff, List.isEmpty_iff] at hempty
    have hsides : ¬ AppliesAt t p .sides := mt appliesAt_sides_iff.mp hempty
    have hright : Text.trim p.right ≠ [] := fun h => hempty (.inr h)
    split at h
    · rename_i hlength
      obtain ⟨hslash, hdigits⟩ := (slash_and_isDecimal_iff hright).mp hlength
      -- The block reader quotes the text it is given once more trimmed.
      obtain rfl := Block.eq_of_ofText_eq_error (map_eq_error_iff.mp h)
      rw [ht]
      have hgives : GivesAt t p .prefixLength (.invalidPrefix t) := .prefixLength hslash hdigits
      exact ⟨.prefixLength, .cons hsides (.head ⟨_, hgives⟩), hgives⟩
    · rename_i hlength
      rw [slash_and_isDecimal_iff hright, ← appliesAt_prefixLength_iff (t := t)] at hlength
      obtain ⟨r, hfirst, hgives⟩ := first_of_bounds_eq_error h
      exact ⟨r, .cons hsides (.cons hlength hfirst), hgives⟩

/-! ## The first rule -/

/-- A text that writes no item gets the error of the first rule that applies to it. -/
theorem firstGives_of_ofText (h : ofText s = .error e) : FirstGives (Text.trim s) e := by
  have ht := Text.trim_trim s
  by_cases hempty : Text.trim s = []
  · unfold ofText at h
    rw [hempty] at h ⊢
    cases h
    exact ⟨.text, .head ⟨_, .text rfl⟩, .text rfl⟩
  rw [ofText_eq hempty] at h
  generalize Text.trim s = t at h ht hempty
  have htext : ¬ Applies t .text := mt applies_text_iff.mp hempty
  rcases parting_cases t with ⟨r, hr, happlies⟩ | hnone | ⟨p, hp⟩
  · -- Some rule is broken here, so the first one that is broken gives the error.
    obtain ⟨r, hfirst⟩ := IsFirst.exists_of_mem hr happlies
    obtain ⟨e', hgives⟩ := hfirst.property
    rw [hgives.parting_eq hfirst.mem] at h
    cases h
    exact ⟨r, .cons htext (hfirst.append_right _), hgives⟩
  · have hparting := Parting.ofText_of_none hnone
    rw [hparting] at h
    obtain ⟨-, rfl⟩ := Address.ofTextOr_eq_error_iff.mp (map_eq_error_iff.mp h)
    exact ⟨.address, .cons htext (.append_left (not_applies_of_parting hparting)
      (.head ⟨_, .address hnone⟩)), .address hnone⟩
  · have hparting := Parting.ofText_of_divides hp
    rw [hparting] at h
    obtain ⟨r, hfirst, hgives⟩ := first_of_ofParting_eq_error ht (map_eq_error_iff.mp h)
    have haddress : ¬ Applies t .address := by
      rintro ⟨e', h'⟩
      cases h' with
      | address hnone => exact hnone p.separator ⟨p.left, p.right, hp.append_eq.symm⟩
      | side hq h' => nomatch h'
    -- The rules about the sides mean the same for the text as for its one parting.
    have hsides : IsFirst (Applies t) Rule.ofSides r :=
      hfirst.congr fun r hr => exists_congr fun e => (gives_iff hp hr).symm
    exact ⟨r, .cons htext (.append_left (not_applies_of_parting hparting) (.cons haddress hsides)),
      .side hp hgives⟩

/-- **The precedence of errors.** A text is refused with an error exactly if it spells no item once
it is trimmed and the error is given by the first of the rules that applies to it. -/
theorem ofText_refuses_first (s : Text) (e : Error) :
    ofText s = .error e ↔ (¬ ∃ i, Spells (Text.trim s) i) ∧ FirstGives (Text.trim s) e := by
  constructor
  · intro h
    refine ⟨?_, firstGives_of_ofText h⟩
    rintro ⟨i, hi⟩
    rw [ofText_eq_ok_iff.mpr hi] at h
    cases h
  · rintro ⟨hspells, hfirst⟩
    cases hs : ofText s with
    | ok i => exact absurd ⟨i, ofText_eq_ok_iff.mp hs⟩ hspells
    | error e' => rw [(firstGives_of_ofText hs).unique hfirst]

-- Both kinds of signs stand here, one of them twice, and no side is an address.
example : ofText " x/y - z/ ".toList = .error (.repeatedSeparator .slash "x/y - z/".toList) :=
  rfl

end Item

end NetRanges
