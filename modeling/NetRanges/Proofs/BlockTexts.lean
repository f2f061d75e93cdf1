import NetRanges.Proofs.Precedence

/-!
# Blocks and ranges read the same texts

The text of a block can be given to the reader of blocks and to that of ranges. Where the only
separator of the text is a slash before digits, the second one asks the first one, so both accept
the text or both refuse it (`Range.ofText_of_slash`). What the reader of blocks accepts is always
of this form or an address alone, except that it also takes a plus sign before the length, which
the reader of ranges takes for the start of an upper bound (`Block.ofText_cases`).
-/

namespace NetRanges

namespace Text

theorem plain_of_trim {t : Text} (h : Plain (trim t)) : Plain t := by
  obtain ⟨w, w', hw, hw', ht⟩ := exists_blank_trim_blank t
  rw [ht]
  exact (hw.plain.append h).append hw'.plain

end Text

namespace Block

variable {s t left right : Text} {b : Block} {a : Address} {k : Nat}

theorem range_host (a : Address) : (host a).range = .single a := by
  have hsize : (host a).size = 1 := by
    show Nat.pow 2 (a.family.bits - a.family.bits) = 1
    rw [Nat.sub_self, Nat.pow_eq, Nat.pow_zero]
  have hextent : (host a).extent = ⟨a.value, a.value⟩ := by
    show Extent.mk (a.value / (host a).size * (host a).size)
      (a.value / (host a).size * (host a).size + ((host a).size - 1)) = _
    rw [hsize, Nat.div_one, Nat.mul_one]
    rfl
  unfold range
  rw [hextent]
  rfl

theorem length?_cases (h : length? t = some k) :
    Numeral.isDecimal t = true ∨ ∃ digits, t = '+' :: digits ∧ Numeral.isDecimal digits = true := by
  unfold length? at h
  split at h
  · rename_i digits
    exact .inr ⟨digits, rfl, Numeral.isDecimal_iff.mpr ⟨k, h⟩⟩
  · exact .inl (Numeral.isDecimal_iff.mpr ⟨k, h⟩)

/-- The number behind the first slash of a text has a plus sign. -/
def Signed (t : Text) : Prop :=
  ∃ left right, t = left ++ Separator.slash.text ++ right ∧ '/' ∉ left ∧
    ∃ rest, Text.trim right = '+' :: rest

theorem ofText_cases (h : ofText s = .ok b) :
    (∃ a, Address.ofText? (Text.trim s) = some a ∧ b = host a) ∨
      ∃ left right a k, Parting.Divides ⟨left, .slash, right⟩ (Text.trim s) ∧ '/' ∉ left ∧
        Address.ofText? (Text.trim left) = some a ∧ length? (Text.trim right) = some k := by
  have ht := Text.trim_trim s
  have htrimmed : ofText (Text.trim s) = .ok b := by
    unfold ofText at h ⊢
    rwa [ht]
  cases hcut : Text.cut? Separator.slash.text (Text.trim s) with
  | none =>
    unfold ofText ofTrimmed? at htrimmed
    simp only [ht, hcut] at htrimmed
    left
    cases ha : Address.ofText? (Text.trim s) with
    | none =>
      rw [ha] at htrimmed
      cases htrimmed
    | some a =>
      rw [ha] at htrimmed
      cases htrimmed
      exact ⟨a, rfl, rfl⟩
  | some parts =>
    obtain ⟨left, right⟩ := parts
    obtain ⟨a, k, ha, hk, -, -⟩ := (ofText_eq_ok_iff ht hcut).mp htrimmed
    have hleft : Text.Plain left := Text.plain_of_trim (Text.plain_of_address ha)
    have hright : Text.Plain right := by
      apply Text.plain_of_trim
      rcases length?_cases hk with hdigits | ⟨digits, hsign, hdigits⟩
      · exact Text.plain_of_isAddressChar (Text.isAddressChar_of_isDecimal hdigits)
      · rw [hsign]
        refine List.forall_mem_cons.mpr ⟨by decide, ?_⟩
        exact Text.plain_of_isAddressChar (Text.isAddressChar_of_isDecimal hdigits)
    refine .inr ⟨left, right, a, k, ?_, hleft.not_mem (by decide), ha, hk⟩
    rw [Text.append_of_cut? hcut]
    exact Parting.divides_append .slash hleft hright

end Block

theorem Item.ofParting_eq_ite {p : Parting} (hleft : Text.trim p.left ≠ [])
    (hright : Text.trim p.right ≠ []) (t : Text) :
    ofParting t p =
      if p.separator = .slash ∧ Numeral.isDecimal (Text.trim p.right) = true then
        (Block.ofText t).map Block.range
      else bounds (Text.trim p.left) (Text.trim p.right) := by
  have hempty : ((Text.trim p.left).isEmpty || (Text.trim p.right).isEmpty) = false := by
    rw [Bool.or_eq_false_iff, List.isEmpty_eq_false_iff, List.isEmpty_eq_false_iff]
    exact ⟨hleft, hright⟩
  simp only [ofParting, hempty, Bool.and_eq_true, decide_eq_true_iff, Bool.false_eq_true, if_false]

namespace Range

variable {s left right rest : Text} {p : Parting} {a : Address}

theorem ofText_of_divides (hp : p.Divides (Text.trim s)) :
    ofText s = Item.ofParting (Text.trim s) p := by
  have hne : Text.trim s ≠ [] := by
    obtain ⟨c, rest, htext, -⟩ := p.separator.exists_text_eq
    rw [hp.append_eq, htext]
    simp
  unfold ofText
  rw [Item.ofText_eq hne, Parting.ofText_of_divides hp]
  show ((Item.ofParting (Text.trim s) p).map Item.range).map Item.toRange = _
  cases Item.ofParting (Text.trim s) p with
  | ok r => rfl
  | error e => rfl

theorem ofText_of_slash (hp : Parting.Divides ⟨left, .slash, right⟩ (Text.trim s))
    (hleft : Text.trim left ≠ []) (hdigits : Numeral.isDecimal (Text.trim right) = true) :
    ofText s = (Block.ofText s).map Block.range := by
  have hright : Text.trim right ≠ [] := by
    intro heq
    rw [heq] at hdigits
    cases hdigits
  have hblock : Block.ofText (Text.trim s) = Block.ofText s := by
    unfold Block.ofText
    rw [Text.trim_trim]
  rw [ofText_of_divides hp, Item.ofParting_eq_ite hleft hright, if_pos ⟨rfl, hdigits⟩, hblock]

/-- A plus sign behind a slash starts no number of bits, and no address either. -/
theorem ofText_of_plus (hp : Parting.Divides ⟨left, .slash, right⟩ (Text.trim s))
    (ha : Address.ofText? (Text.trim left) = some a) (hright : Text.trim right = '+' :: rest) :
    ofText s = .error (.invalidUpper (Text.trim right)) := by
  have hupper : Address.ofText? (Text.trim right) = none := by
    cases hb : Address.ofText? (Text.trim right) with
    | none => rfl
    | some b =>
      rw [hright] at hb
      exact absurd (Address.isAddressChar_of_mem hb (List.mem_cons_self ..)) (by decide)
  have hne : Text.trim right ≠ [] := by
    rw [hright]
    nofun
  have hdigits : ¬ Numeral.isDecimal (Text.trim right) = true := by
    rw [hright]
    nofun
  have hleft : Text.trim left ≠ [] := Address.ne_nil_of_ofText? ha
  have hread := Item.ofParting_eq_ite (p := ⟨left, .slash, right⟩) hleft hne (Text.trim s)
  rw [ofText_of_divides hp, hread, if_neg fun h => hdigits h.2]
  exact Item.bounds_eq_error_iff.mpr (.inr ⟨a, ha, .inl ⟨hupper, rfl⟩⟩)

end Range

namespace Block

/-- **Blocks in the grammar of ranges.** A text that is read as a block is read as the range of
that block, unless the length in it has a plus sign. Where the only separator of a text is a slash
with something before it and a run of digits behind it, both readers accept it, with the same
addresses, or both refuse it with the same error. -/
theorem ofText_alike (s : Text) :
    (∀ b, ofText s = .ok b → (Range.ofText s = .ok b.range ↔ ¬ Signed (Text.trim s))) ∧
      ∀ left right, Parting.Divides ⟨left, .slash, right⟩ (Text.trim s) → ¬ Text.Blank left →
        Numeral.isDecimal (Text.trim right) = true →
        (∃ b, ofText s = .ok b ∧ Range.ofText s = .ok b.range) ∨
          ofText s = .error (.invalidPrefix (Text.trim s)) ∧
            Range.ofText s = .error (.invalidPrefix (Text.trim s)) := by
  constructor
  · intro b hread
    rcases ofText_cases hread with ⟨a, ha, rfl⟩ | ⟨left, right, a, k, hp, hslash, ha, hk⟩
    · have hitem : Item.ofText s = .ok (.address a) := Item.ofText_of_spells (.address ha)
      rw [range_host]
      refine iff_of_true (map_eq_ok_iff.mpr ⟨_, hitem, rfl⟩) ?_
      rintro ⟨left, right, happend, -⟩
      exact Parting.not_isInfix_of_plain (Text.plain_of_address ha) .slash
        ⟨left, right, happend.symm⟩
    · rcases length?_cases hk with hdigits | ⟨digits, hplus, -⟩
      · rw [Range.ofText_of_slash hp (Address.ne_nil_of_ofText? ha) hdigits, hread]
        refine iff_of_true rfl ?_
        rintro ⟨left', right', happend, -, rest, hplus⟩
        -- The text has one slash only, so the digits are what stands behind it.
        obtain ⟨-, rfl⟩ := Separator.place_unique hp.append_eq happend hp.once
        rw [hplus] at hdigits
        cases hdigits
      · rw [Range.ofText_of_plus hp ha hplus]
        exact iff_of_false nofun
          (not_not_intro ⟨left, right, hp.append_eq, hslash, digits, hplus⟩)
  · intro left right hp hleft hdigits
    rw [Range.ofText_of_slash hp (mt Text.trim_eq_nil_iff.mp hleft) hdigits]
    cases hread : ofText s with
    | ok b => exact .inl ⟨b, rfl, rfl⟩
    | error e =>
      obtain rfl := eq_of_ofText_eq_error hread
      exact .inr ⟨rfl, rfl⟩

/-- A plus sign, which only the reader of blocks takes; blanks on every side of a length with a
leading zero; and a number that no length can be. -/
theorem ofText_alike_of_padded :
    let plus := "10.0.0.0/+8".toList
    let padded := " 10.0.0.12 / 024 ".toList
    let tooLong := "::/0300 ".toList
    (∃ b, ofText plus = .ok b ∧ Range.ofText plus ≠ .ok b.range) ∧
      Range.ofText padded = .ok (Block.mk (.ofNat .v4 0x0A00000C) 24).range ∧
      Range.ofText tooLong = .error (.invalidPrefix "::/0300".toList) := by
  intro plus padded tooLong
  refine ⟨⟨⟨.ofNat .v4 0x0A000000, 8⟩, rfl, ?_⟩, ?_, ?_⟩
  · have hsigned : Signed (Text.trim plus) :=
      ⟨"10.0.0.0".toList, "+8".toList, rfl, by decide, "8".toList, rfl⟩
    exact mt ((ofText_alike plus).1 _ rfl).mp (not_not_intro hsigned)
  · have hleft : Text.Plain "10.0.0.12 ".toList :=
      Text.plain_of_trim (Text.plain_of_address (a := .ofNat .v4 0x0A00000C) rfl)
    have hright : Text.Plain " 024".toList :=
      Text.plain_of_trim (Text.plain_of_isAddressChar (Text.isAddressChar_of_isDecimal rfl))
    have hp : Parting.Divides ⟨_, .slash, _⟩ (Text.trim padded) :=
      Parting.divides_append .slash hleft hright
    have hne : ¬ Text.Blank "10.0.0.12 ".toList := mt Text.trim_eq_nil_iff.mpr (by decide)
    rcases (ofText_alike padded).2 _ _ hp hne (by decide) with ⟨b, hb, hread⟩ | ⟨he, -⟩
    · cases hb
      exact hread
    · cases he
  · have hleft : Text.Plain "::".toList := Text.plain_of_address (a := .ofNat .v6 0) rfl
    have hright : Text.Plain "0300".toList :=
      Text.plain_of_isAddressChar (Text.isAddressChar_of_isDecimal rfl)
    have hp : Parting.Divides ⟨_, .slash, _⟩ (Text.trim tooLong) :=
      Parting.divides_append .slash hleft hright
    have hne : ¬ Text.Blank "::".toList := mt Text.trim_eq_nil_iff.mpr (by decide)
    rcases (ofText_alike tooLong).2 _ _ hp hne (by decide) with ⟨b, hb, -⟩ | ⟨-, hread⟩
    · cases hb
    · exact hread

end Block

end NetRanges
