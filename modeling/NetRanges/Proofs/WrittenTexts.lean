import NetRanges.Json.Records
import NetRanges.Proofs.Tokens
import NetRanges.Proofs.WrittenAddresses

/-!
# Written texts read back

The text of a range is one of the ways of writing it: its only address, or its two ends around an
arrow with a blank on either side (`Range.spells_text`). Addresses hold no blanks, so nothing is
trimmed off, and the reader of items finds the range that was written (`Range.ofText_text`). In a
list each text is read on its own, and the ranges come back in their order.

The text of a block is the way of writing it with nothing around the slash (`Block.spells_text`).
It is tight, so besides the reader of blocks and the reader of items the scanner of free text finds
the block, too, and finds nothing else (`Block.scan_text`).
-/

namespace NetRanges

/-- Addresses at both ends of a text keep the blanks between them. -/
theorem Text.trim_address_append {t v : Text} {a b : Address} (ha : Address.ofText? t = some a)
    (hb : Address.ofText? v = some b) (u : Text) : trim (t ++ u ++ v) = t ++ u ++ v :=
  trim_append_eq_self (Address.ne_nil_of_ofText? ha) (Address.ne_nil_of_ofText? hb)
    (fun _ hc => Loose.isBlank_of_isAddressChar (Address.isAddressChar_of_mem ha hc))
    (fun _ hc => Loose.isBlank_of_isAddressChar (Address.isAddressChar_of_mem hb hc)) u

theorem Address.isAddressChar_of_mem_text (a : Address) :
    ∀ c ∈ a.text, Loose.isAddressChar c = true :=
  fun _ hc => isAddressChar_of_mem (ofText?_text a) hc

namespace Range

variable {r : Range}

theorem single_lower (h : r.isSingle = true) : single r.lower = r := by
  have hends : r.first = r.last := eq_of_beq h
  have hself := spanning_ends r
  rwa [← hends] at hself

theorem trim_text (r : Range) : Text.trim r.text = r.text := by
  have hlower := Address.ofText?_text r.lower
  unfold text
  split
  · exact Text.trim_address hlower
  · exact Text.trim_address_append hlower (Address.ofText?_text r.upper) _

/-- The text of a range spells an item that stands for the range. -/
theorem spells_text (r : Range) : ∃ i, Item.Spells r.text i ∧ i.toRange = r := by
  have hlower := Address.ofText?_text r.lower
  unfold text
  by_cases h : r.isSingle = true
  · rw [if_pos h]
    exact ⟨.address r.lower, .address hlower, single_lower h⟩
  · have hblank : Text.Blank [' '] := List.forall_mem_singleton.mpr rfl
    have harrow : " -> ".toList = [' '] ++ (Separator.arrow.text ++ [' ']) := rfl
    have hspells := Item.Spells.bounds .arrow hlower hblank hblank (Address.ofText?_text r.upper)
      (between_eq_ok_iff.mp r.between_lower_upper)
    rw [if_neg h, harrow]
    simp only [List.append_assoc] at hspells ⊢
    exact ⟨.range r, hspells, rfl⟩

theorem ofText_text (r : Range) : ofText r.text = .ok r := by
  obtain ⟨i, hspells, hi⟩ := r.spells_text
  rw [← r.trim_text] at hspells
  exact map_eq_ok_iff.mpr ⟨i, Item.ofText_of_spells hspells, hi⟩

theorem ofTexts_map_text (rs : List Range) : ofTexts (rs.map text) = .ok rs := by
  induction rs with
  | nil => rfl
  | cons r rs ih =>
    rw [List.map_cons, ofTexts_cons, ofText_text, ih]
    rfl

theorem ofJson_toJson (r : Range) : ofJson r.toJson = .ok r := by
  show Json.checked (ofText r.text) = .ok r
  rw [ofText_text]
  rfl

end Range

theorem Item.ofText_text_address (a : Address) : ofText a.text = .ok (.address a) := by
  have ha := Address.ofText?_text a
  apply ofText_of_spells
  rw [Text.trim_address ha]
  exact .address ha

/-! ## Blocks -/

namespace Block

open Loose (isAddressChar)

variable {b : Block}

theorem isAddressChar_of_mem_length (b : Block) :
    ∀ c ∈ Numeral.write 10 b.length, isAddressChar c = true :=
  Text.isAddressChar_of_isDecimal (Numeral.isDecimal_write b.length)

theorem tight_text (b : Block) : Loose.Tight b.text :=
  Loose.tight_append b.address.isAddressChar_of_mem_text b.isAddressChar_of_mem_length (by decide)
    (by decide)

theorem trim_text (b : Block) : Text.trim b.text = b.text :=
  Text.trim_eq_self b.tight_text.1

theorem pieces_text (b : Block) : Text.pieces b.text = [b.text] := by
  have hcomma : ',' ∉ b.text := by
    unfold text
    simp only [List.mem_append, List.mem_singleton]
    rintro ((hc | hc) | hc)
    · exact absurd (b.address.isAddressChar_of_mem_text _ hc) (by decide)
    · exact absurd hc (by decide)
    · exact absurd (b.isAddressChar_of_mem_length _ hc) (by decide)
  have hne : Text.trim b.text ≠ [] := by
    rw [trim_text]
    simp [text]
  rw [Text.pieces_of_not_mem hcomma hne, trim_text]

/-- The text of a block spells its range, if the family is wide enough for the length. -/
theorem spells_text (h : b.length ≤ b.family.bits) : Item.Spells b.text (.range b.range) := by
  have hspells := Item.Spells.block (Address.ofText?_text b.address) Text.blank_nil Text.blank_nil
    (Numeral.isDecimal_write b.length) (Numeral.read?_write (by decide) (by decide) b.length) h
    (Range.isBlockOf_range h)
  rwa [List.append_nil, List.append_nil] at hspells

theorem item_ofText_text (h : b.length ≤ b.family.bits) :
    Item.ofText b.text = .ok (.range b.range) := by
  apply Item.ofText_of_spells
  rw [trim_text]
  exact spells_text h

theorem ofText_text (h : b.length ≤ b.family.bits) : ofText b.text = .ok b := by
  have hslash : '/' ∉ b.address.text :=
    (Text.plain_of_isAddressChar b.address.isAddressChar_of_mem_text).not_mem (by decide)
  have hcut : Text.cut? Separator.slash.text b.text =
      some (b.address.text, Numeral.write 10 b.length) := Text.cut?_of_not_mem hslash _
  have haddress := Address.ofText?_text b.address
  have hdecimal := Numeral.isDecimal_write b.length
  refine (ofText_eq_ok_iff b.trim_text hcut).mpr ⟨b.address, b.length, ?_, ?_, h, rfl⟩
  · rwa [Text.trim_address haddress]
  · rw [Text.trim_decimal hdecimal, length?_of_isDecimal hdecimal]
    exact Numeral.read?_write (by decide) (by decide) b.length

/-- The text of a block is one token, and the scanner finds its range and nothing else. -/
theorem scan_text (h : b.length ≤ b.family.bits) (s : Loose.Scanner) :
    s.scan b.text = ⟨[], [b.range]⟩ := by
  have hitems : Loose.tightItems b.text = [.range b.range] := by
    unfold Loose.tightItems
    rw [pieces_text, List.filter_cons, decide_eq_true b.tight_text, if_pos rfl, List.filter_nil,
      List.filterMap_cons, item_ofText_text h]
    rfl
  rw [Loose.Scanner.scan_eq, hitems]
  rfl

end Block

/-- **Written texts read back.** What is written for a range, a block or an address is read as
that range, block or address, by every reader that takes such texts. For a range this is so in its
JSON form, too; a block is also read as an item and found as the only token of a free text, and
both times it stands for its range. -/
theorem text_reads_back :
    (∀ r : Range, Range.ofText r.text = .ok r ∧ Range.ofJson r.toJson = .ok r) ∧
      (∀ (a : Address) (length : Nat) (b : Block), Block.of a length = .ok b →
        Block.ofText b.text = .ok b ∧ Item.ofText b.text = .ok (.range b.range) ∧
          ∀ s : Loose.Scanner, s.scan b.text = ⟨[], [b.range]⟩) ∧
      ∀ a : Address, Item.ofText a.text = .ok (.address a) := by
  refine ⟨fun r => ⟨r.ofText_text, r.ofJson_toJson⟩, ?_, Item.ofText_text_address⟩
  intro a length b hb
  obtain ⟨hle, rfl⟩ := Block.of_eq_ok_iff.mp hb
  exact ⟨Block.ofText_text hle, Block.item_ofText_text hle, Block.scan_text hle⟩

/-- The block of an address that embeds thirty-two bits, with host bits set. -/
theorem text_reads_back_embedded :
    let b : Block := ⟨.ofNat .v6 0xFFFF0A00000C, 120⟩
    Block.of b.address 120 = .ok b ∧ b.text = "::ffff:10.0.0.12/120".toList ∧
      Block.ofText b.text = .ok b :=
  ⟨rfl, by decide +kernel, (text_reads_back.2.1 (.ofNat .v6 0xFFFF0A00000C) 120 _ rfl).1⟩

end NetRanges
