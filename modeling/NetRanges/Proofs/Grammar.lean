import NetRanges.Proofs.AddressTexts
import NetRanges.Proofs.Partition
import NetRanges.Proofs.Paths
import NetRanges.Proofs.Separators

/-!
# The grammar of items

`Item.Spells` lists the ways of writing an item: an address, an address with a prefix length, and
two addresses around a separator. The reader accepts exactly the texts that, once trimmed, are
written in one of these ways, and reads what they spell (`Item.ofText_eq_ok_iff`). The signs of
the separators do not occur in addresses, numerals and blanks (`Text.Plain`), so a text written
in one of these ways is parted where its writer put the separator (`Parting.ofText_append`).
-/

namespace NetRanges

/-! ## Texts without the sign of a separator -/

namespace Text

/-- No character of a separator stands in the text. -/
def Plain (t : Text) : Prop :=
  ∀ c ∈ t, Separator.isSign c = false

variable {t u : Text}

theorem Plain.append (ht : Plain t) (hu : Plain u) : Plain (t ++ u) := by
  intro c hc
  rcases List.mem_append.mp hc with hc | hc
  · exact ht c hc
  · exact hu c hc

theorem Plain.not_mem (h : Plain t) {c : Char} (hc : Separator.isSign c = true) : c ∉ t := by
  intro hmem
  rw [h c hmem] at hc
  cases hc

theorem Blank.plain (h : Blank t) : Plain t := by
  intro c hc
  cases hsign : Separator.isSign c with
  | false => rfl
  | true =>
    have hblank := h c hc
    simp only [Separator.isSign, Bool.or_eq_true, beq_iff_eq] at hsign
    rcases hsign with ((rfl | rfl) | rfl) | rfl
    · exact absurd hblank (by decide)
    · exact absurd hblank (by decide)
    · exact absurd hblank (by decide)
    · exact absurd hblank (by decide)

theorem plain_of_isAddressChar (h : ∀ c ∈ t, Loose.isAddressChar c = true) : Plain t :=
  fun c hc => Loose.isSign_of_isAddressChar (h c hc)

theorem plain_of_address {a : Address} (h : Address.ofText? t = some a) : Plain t :=
  plain_of_isAddressChar fun _ hc => Address.isAddressChar_of_mem h hc

theorem trim_address {a : Address} (h : Address.ofText? t = some a) : trim t = t :=
  trim_eq_self fun _ hc => Loose.isBlank_of_isAddressChar (Address.isAddressChar_of_mem h hc)

theorem isAddressChar_of_isDecimal (h : Numeral.isDecimal t = true) :
    ∀ c ∈ t, Loose.isAddressChar c = true := by
  intro c hc
  rw [Numeral.isDecimal, Bool.and_eq_true, List.all_eq_true] at h
  exact Loose.isAddressChar_of_isDigit (h.2 c hc)

theorem trim_decimal (h : Numeral.isDecimal t = true) : trim t = t :=
  trim_eq_self fun c hc => Loose.isBlank_of_isAddressChar (isAddressChar_of_isDecimal h c hc)

end Text

/-! ## Partings -/

namespace Separator

/-- The last character of a separator, which no other separator of one character has. -/
def mark : Separator → Char
  | arrow => '>'
  | slash => '/'
  | dash => '-'
  | enDash => '–'

theorem isSign_mark (s : Separator) : isSign s.mark = true := by
  cases s <;> decide

theorem mark_mem_text (s : Separator) : s.mark ∈ s.text := by
  cases s <;> decide

theorem exists_text_eq (s : Separator) : ∃ c rest, s.text = c :: rest ∧ isSign c = true := by
  cases s
  · exact ⟨_, _, rfl, by decide⟩
  · exact ⟨_, _, rfl, by decide⟩
  · exact ⟨_, _, rfl, by decide⟩
  · exact ⟨_, _, rfl, by decide⟩

theorem eq_of_mark_mem {s s' : Separator} (hs : s ≠ arrow) (h : s'.mark ∈ s.text) : s' = s := by
  revert hs h
  cases s <;> cases s' <;> decide

end Separator

namespace Parting

variable {t before after : Text} {s : Separator} {p : Parting}

theorem mark_mem_of_holds (h : Text.holds s.text t = true) : s.mark ∈ t :=
  (Text.holds_iff_isInfix.mp h).subset s.mark_mem_text

theorem not_isInfix_of_plain (h : Text.Plain t) (s : Separator) : ¬ s.text <:+: t :=
  fun hs => h.not_mem s.isSign_mark (hs.subset s.mark_mem_text)

/-- Between plain texts a separator is the only one of the text. -/
theorem divides_append (s : Separator) (hbefore : Text.Plain before) (hafter : Text.Plain after) :
    Divides ⟨before, s, after⟩ (before ++ s.text ++ after) where
  append_eq := rfl
  once := by
    obtain ⟨c, rest, htext, hsign⟩ := s.exists_text_eq
    have hcut : Text.cut? s.text (before ++ s.text ++ after) = some (before, after) := by
      rw [htext]
      exact Text.cut?_of_not_mem (hbefore.not_mem hsign) after
    rw [Text.repeats_iff_of_cut? hcut, Text.holds_iff_isInfix]
    exact not_isInfix_of_plain hafter s
  alone := by
    intro hs s' hne h
    have hmem := h.subset s'.mark_mem_text
    rw [List.mem_append, List.mem_append] at hmem
    rcases hmem with (hmem | hmem) | hmem
    · exact hbefore.not_mem s'.isSign_mark hmem
    · exact hne (Separator.eq_of_mark_mem hs hmem)
    · exact hafter.not_mem s'.isSign_mark hmem

/-- A text is parted where its only separator stands. -/
theorem ofText_append (s : Separator) (hbefore : Text.Plain before) (hafter : Text.Plain after) :
    ofText (before ++ s.text ++ after) = .ok (some ⟨before, s, after⟩) :=
  ofText_of_divides (divides_append s hbefore hafter)

theorem cut?_of_only (h : only s t = .ok (some p)) :
    Text.cut? p.separator.text t = some (p.left, p.right) := by
  unfold only at h
  split at h
  · cases h
  · rename_i left right hcut
    split at h
    · cases h
    · cases h
      exact hcut

theorem cut?_of_ofText (h : ofText t = .ok (some p)) :
    Text.cut? p.separator.text t = some (p.left, p.right) := by
  unfold ofText at h
  split at h
  · exact cut?_of_only h
  · split at h
    · cases h
    · exact cut?_of_only h
    · split at h <;> cases h

end Parting

/-! ## What the parts spell -/

namespace Range

variable {r s : Range} {a b : Address} {k : Nat}

/-- The addresses of the range are those that agree with `a` on the first `k` bits. -/
def IsBlockOf (r : Range) (a : Address) (k : Nat) : Prop :=
  ∀ x : Address, r.contains x false = true ↔ x.family = a.family ∧ x.path.take k = a.path.take k

/-- The range goes from the smaller one of two addresses of one family to the larger one. -/
structure Spans (r : Range) (a b : Address) : Prop where
  same_family : a.family = b.family
  family_eq : r.family = a.family
  first_eq : r.first = min a.value b.value
  last_eq : r.last = max a.value b.value

theorem contains_lower (r : Range) : r.contains r.lower false = true :=
  contains_iff.mpr ⟨rfl, Nat.le_refl _, r.first_le_last⟩

theorem contains_upper (r : Range) : r.contains r.upper false = true :=
  contains_iff.mpr ⟨rfl, r.first_le_last, Nat.le_refl _⟩

/-- A range is determined by its addresses. -/
theorem eq_of_contains_iff
    (h : ∀ x : Address, r.contains x false = true ↔ s.contains x false = true) : r = s := by
  obtain ⟨hfam, hrlower, -⟩ := contains_iff.mp ((h _).mp r.contains_lower)
  obtain ⟨-, -, hrupper⟩ := contains_iff.mp ((h _).mp r.contains_upper)
  obtain ⟨-, hslower, -⟩ := contains_iff.mp ((h _).mpr s.contains_lower)
  obtain ⟨-, -, hsupper⟩ := contains_iff.mp ((h _).mpr s.contains_upper)
  exact eq_of_ends_eq hfam.symm (Nat.le_antisymm hslower hrlower)
    (Nat.le_antisymm hrupper hsupper)

theorem isBlockOf_range (hk : k ≤ a.family.bits) : (Block.mk a k).range.IsBlockOf a k := by
  intro x
  rw [Block.contains_range_iff, eq_comm (a := (Block.mk a k).family)]
  refine and_congr_right fun hfam => ?_
  rw [Address.take_path_eq_iff hfam (hfam ▸ hk), Block.mem_extent_iff, hfam]
  rfl

theorem isBlockOf_iff (hk : k ≤ a.family.bits) : r.IsBlockOf a k ↔ r = (Block.mk a k).range := by
  constructor
  · intro h
    exact eq_of_contains_iff fun x => (h x).trans (isBlockOf_range hk x).symm
  · rintro rfl
    exact isBlockOf_range hk

theorem spans_spanning (h : a.family = b.family) :
    (spanning a.family a.value b.value).Spans a b := by
  have ha := Family.lt_size_iff.mp a.value_lt
  have hb := Family.lt_size_iff.mp b.value_lt
  rw [← h] at hb
  refine ⟨h, rfl, ?_, ?_⟩
  · show min (min a.value b.value) a.family.top = min a.value b.value
    omega
  · show min (max a.value b.value) a.family.top = max a.value b.value
    omega

theorem between_eq_ok_iff : between a b = .ok r ↔ r.Spans a b := by
  unfold between
  by_cases h : a.family = b.family
  · have hspan := spans_spanning h
    rw [if_pos h, Except.ok.injEq]
    constructor
    · rintro rfl
      exact hspan
    · intro hr
      exact eq_of_ends_eq hr.family_eq.symm (hspan.first_eq.trans hr.first_eq.symm)
        (hspan.last_eq.trans hr.last_eq.symm)
  · rw [if_neg h]
    exact ⟨nofun, fun hr => absurd hr.same_family h⟩

end Range

namespace Address

theorem ofTextOr_eq_ok_iff {refusal : Error} {t : Text} {a : Address} :
    ofTextOr refusal t = .ok a ↔ ofText? t = some a := by
  unfold ofTextOr
  cases ofText? t with
  | some b => simp
  | none => simp

end Address

namespace Block

variable {t left right : Text} {b : Block} {a : Address} {k : Nat}

theorem of_eq_ok_iff : of a k = .ok b ↔ k ≤ a.family.bits ∧ b = ⟨a, k⟩ := by
  unfold of
  by_cases h : k ≤ a.family.bits
  · rw [if_pos h, Except.ok.injEq, and_iff_right h, eq_comm]
  · rw [if_neg h]
    exact ⟨nofun, fun hb => absurd hb.1 h⟩

/-- A trimmed text with a slash writes the block of the address and the length around it. -/
theorem ofText_eq_ok_iff (ht : Text.trim t = t)
    (hcut : Text.cut? Separator.slash.text t = some (left, right)) :
    ofText t = .ok b ↔ ∃ a k, Address.ofText? (Text.trim left) = some a ∧
      length? (Text.trim right) = some k ∧ k ≤ a.family.bits ∧ b = ⟨a, k⟩ := by
  have hofText : ofText t = .ok b ↔ ofTrimmed? t = some b := by
    unfold ofText
    simp only [ht]
    cases ofTrimmed? t with
    | some c => simp
    | none => simp
  rw [hofText]
  unfold ofTrimmed?
  rw [hcut]
  simp only [Option.bind_eq_bind, Option.bind_eq_some_iff, toOption_eq_some_iff, of_eq_ok_iff]
  constructor
  · rintro ⟨a, ha, k, hk, hle, hb⟩
    exact ⟨a, k, ha, hk, hle, hb⟩
  · rintro ⟨a, k, ha, hk, hle, hb⟩
    exact ⟨a, ha, k, hk, hle, hb⟩

/-- No plus sign stands before a run of digits. -/
theorem length?_of_isDecimal (h : Numeral.isDecimal t = true) :
    length? t = Numeral.read? 10 t := by
  unfold length?
  split
  · rename_i rest
    rw [Numeral.isDecimal, Bool.and_eq_true, List.all_cons, Bool.and_eq_true] at h
    exact absurd h.2.1 (by decide)
  · rfl

end Block

namespace Item

/-- The ways of writing an item. -/
inductive Spells : Text → Item → Prop
  /-- The text of an address. -/
  | address {t : Text} {a : Address} (ha : Address.ofText? t = some a) : Spells t (.address a)
  /-- An address, a slash and a number of bits in decimal, with blanks around the slash: the block
  of all addresses with the same first bits. -/
  | block {left w w' digits : Text} {a : Address} {k : Nat} {r : Range}
      (ha : Address.ofText? left = some a) (hw : Text.Blank w) (hw' : Text.Blank w')
      (hdigits : Numeral.isDecimal digits = true) (hk : Numeral.read? 10 digits = some k)
      (hle : k ≤ a.family.bits) (hr : r.IsBlockOf a k) :
      Spells (left ++ w ++ Separator.slash.text ++ w' ++ digits) (.range r)
  /-- Two addresses of one family around any separator, with blanks around it: the range from the
  smaller one to the larger one. -/
  | bounds {left w w' right : Text} {a b : Address} {r : Range} (s : Separator)
      (ha : Address.ofText? left = some a) (hw : Text.Blank w) (hw' : Text.Blank w')
      (hb : Address.ofText? right = some b) (hr : r.Spans a b) :
      Spells (left ++ w ++ s.text ++ w' ++ right) (.range r)

variable {s t left right : Text} {i : Item} {p : Parting} {r : Range}

theorem bounds_eq_ok_iff : bounds left right = .ok r ↔
    ∃ a b, Address.ofText? left = some a ∧ Address.ofText? right = some b ∧ r.Spans a b := by
  unfold bounds
  simp only [bind, bind_eq_ok_iff, Address.ofTextOr_eq_ok_iff, Range.between_eq_ok_iff,
    exists_and_left]

/-! ## Reading spells -/

/-- A trimmed text is made up of the trimmed sides of its parting and what is between them. -/
theorem exists_blanks_of_parting (ht : Text.trim t = t) (hp : Parting.ofText t = .ok (some p)) :
    ∃ w w', Text.Blank w ∧ Text.Blank w' ∧
      t = Text.trim p.left ++ w ++ p.separator.text ++ w' ++ Text.trim p.right := by
  obtain ⟨w₀, w, hw₀, hw, hleft⟩ := Text.exists_blank_trim_blank p.left
  obtain ⟨w', w₁, hw', hw₁, hright⟩ := Text.exists_blank_trim_blank p.right
  have hall : t = w₀ ++ (Text.trim p.left ++ w ++ p.separator.text ++ w' ++ Text.trim p.right) ++
      w₁ := by
    have happend := Text.append_of_cut? (Parting.cut?_of_ofText hp)
    rw [hleft, hright] at happend
    simpa only [List.append_assoc] using happend
  have houter := Text.eq_nil_of_trim_eq_self hw₀ hw₁ (hall ▸ ht)
  rw [houter.1, houter.2, List.nil_append, List.append_nil] at hall
  exact ⟨w, w', hw, hw', hall⟩

theorem spells_of_ofParting (ht : Text.trim t = t) (hp : Parting.ofText t = .ok (some p))
    (h : ofParting t p = .ok r) : Spells t (.range r) := by
  obtain ⟨w, w', hw, hw', hall⟩ := exists_blanks_of_parting ht hp
  unfold ofParting at h
  simp only at h
  split at h
  · cases h
  · split at h
    · rename_i hslash
      rw [Bool.and_eq_true, decide_eq_true_iff] at hslash
      obtain ⟨hslash, hdigits⟩ := hslash
      have hcut := Parting.cut?_of_ofText hp
      rw [hslash] at hcut hall
      obtain ⟨b, hblock, rfl⟩ := map_eq_ok_iff.mp h
      obtain ⟨a, k, ha, hk, hle, rfl⟩ := (Block.ofText_eq_ok_iff ht hcut).mp hblock
      rw [Block.length?_of_isDecimal hdigits] at hk
      rw [hall]
      exact .block ha hw hw' hdigits hk hle (Range.isBlockOf_range hle)
    · obtain ⟨a, b, ha, hb, hr⟩ := bounds_eq_ok_iff.mp h
      rw [hall]
      exact .bounds p.separator ha hw hw' hb hr

theorem ofText_eq (hne : Text.trim s ≠ []) :
    ofText s = (Parting.ofText (Text.trim s)).bind fun
      | none => (Address.ofTextOr (.invalidAddress (Text.trim s)) (Text.trim s)).map address
      | some p => (ofParting (Text.trim s) p).map range := by
  have hempty : (Text.trim s).isEmpty = false := List.isEmpty_eq_false_iff.mpr hne
  unfold ofText
  simp only [hempty, Bool.false_eq_true, if_false]
  rfl

theorem trim_ne_nil_of_ofText (h : ofText s = .ok i) : Text.trim s ≠ [] := by
  intro hnil
  unfold ofText at h
  rw [hnil] at h
  cases h

theorem spells_of_ofText (h : ofText s = .ok i) : Spells (Text.trim s) i := by
  have ht := Text.trim_trim s
  rw [ofText_eq (trim_ne_nil_of_ofText h)] at h
  generalize Text.trim s = t at h ht
  obtain ⟨found, hparting, h⟩ := bind_eq_ok_iff.mp h
  cases found with
  | none =>
    obtain ⟨a, ha, rfl⟩ := map_eq_ok_iff.mp h
    exact .address (Address.ofTextOr_eq_ok_iff.mp ha)
  | some p =>
    obtain ⟨r, hr, rfl⟩ := map_eq_ok_iff.mp h
    exact spells_of_ofParting ht hparting hr

/-! ## What is spelt is read -/

theorem ofText_of_parting (ht : Text.trim s = t) (hne : t ≠ [])
    (hp : Parting.ofText t = .ok (some p)) (hr : ofParting t p = .ok r) :
    ofText s = .ok (.range r) := by
  subst ht
  rw [ofText_eq hne]
  exact bind_eq_ok_iff.mpr ⟨some p, hp, map_eq_ok_iff.mpr ⟨r, hr, rfl⟩⟩

theorem ofParting_bounds {w w' : Text} {a b : Address} (sep : Separator)
    (ha : Address.ofText? left = some a) (hw : Text.Blank w) (hw' : Text.Blank w')
    (hb : Address.ofText? right = some b) (hr : r.Spans a b) (t : Text) :
    ofParting t ⟨left ++ w, sep, w' ++ right⟩ = .ok r := by
  have hleft : (left.isEmpty || right.isEmpty) = false := by
    rw [Bool.or_eq_false_iff, List.isEmpty_eq_false_iff, List.isEmpty_eq_false_iff]
    exact ⟨Address.ne_nil_of_ofText? ha, Address.ne_nil_of_ofText? hb⟩
  unfold ofParting
  simp only [Text.trim_append_blank (Text.trim_address ha) hw,
    Text.trim_blank_append hw' (Text.trim_address hb), hleft, Address.isDecimal_eq_false hb,
    Bool.and_false, Bool.false_eq_true, if_false]
  exact bounds_eq_ok_iff.mpr ⟨a, b, ha, hb, hr⟩

theorem ofParting_block {w w' digits : Text} {a : Address} {k : Nat} (ht : Text.trim t = t)
    (hp : Parting.ofText t = .ok (some ⟨left ++ w, .slash, w' ++ digits⟩))
    (ha : Address.ofText? left = some a) (hw : Text.Blank w) (hw' : Text.Blank w')
    (hdigits : Numeral.isDecimal digits = true) (hk : Numeral.read? 10 digits = some k)
    (hle : k ≤ a.family.bits) :
    ofParting t ⟨left ++ w, .slash, w' ++ digits⟩ = .ok (Block.mk a k).range := by
  have hleft := Text.trim_append_blank (Text.trim_address ha) hw
  have hright := Text.trim_blank_append hw' (Text.trim_decimal hdigits)
  have hempty : (left.isEmpty || digits.isEmpty) = false := by
    rw [Bool.or_eq_false_iff, List.isEmpty_eq_false_iff, List.isEmpty_eq_false_iff]
    exact ⟨Address.ne_nil_of_ofText? ha, (Numeral.exists_read?_iff.mp ⟨k, hk⟩).1⟩
  have hblock : Block.ofText t = .ok ⟨a, k⟩ := by
    refine (Block.ofText_eq_ok_iff ht (Parting.cut?_of_ofText hp)).mpr ⟨a, k, ?_, ?_, hle, rfl⟩
    · exact (congrArg Address.ofText? hleft).trans ha
    · exact (congrArg Block.length? hright).trans ((Block.length?_of_isDecimal hdigits).trans hk)
  unfold ofParting
  simp only [hleft, hright, hempty, hdigits, Bool.and_true, decide_true, Bool.false_eq_true,
    if_false, if_true, hblock]
  rfl

theorem ofText_of_spells (h : Spells (Text.trim s) i) : ofText s = .ok i := by
  have ht := Text.trim_trim s
  generalize htrim : Text.trim s = t at h ht
  cases h with
  | address ha =>
    have hne := Address.ne_nil_of_ofText? ha
    have hp := Parting.ofText_of_none (Parting.not_isInfix_of_plain (Text.plain_of_address ha))
    rw [ofText_eq (htrim ▸ hne), htrim]
    exact bind_eq_ok_iff.mpr
      ⟨none, hp, map_eq_ok_iff.mpr ⟨_, Address.ofTextOr_eq_ok_iff.mpr ha, rfl⟩⟩
  | @block left w w' digits a k r ha hw hw' hdigits hk hle hr =>
    obtain rfl := (Range.isBlockOf_iff hle).mp hr
    have hplain := Text.plain_of_isAddressChar (Text.isAddressChar_of_isDecimal hdigits)
    have hp := Parting.ofText_append .slash ((Text.plain_of_address ha).append hw.plain)
      (hw'.plain.append hplain)
    rw [← List.append_assoc] at hp
    exact ofText_of_parting htrim (by simp [Separator.text]) hp
      (ofParting_block ht hp ha hw hw' hdigits hk hle)
  | @bounds left w w' right a b r sep ha hw hw' hb hr =>
    have hp := Parting.ofText_append sep ((Text.plain_of_address ha).append hw.plain)
      (hw'.plain.append (Text.plain_of_address hb))
    rw [← List.append_assoc] at hp
    have hne := Address.ne_nil_of_ofText? ha
    exact ofText_of_parting htrim (by simp [hne]) hp (ofParting_bounds sep ha hw hw' hb hr _)

theorem ofText_eq_ok_iff : ofText s = .ok i ↔ Spells (Text.trim s) i :=
  ⟨spells_of_ofText, ofText_of_spells⟩

/-- **The grammar of items.** The reader accepts exactly the texts that spell an item once they
are trimmed, and reads what they spell; it refuses every other text. -/
theorem ofText_accepts_grammar (s : Text) :
    (∀ i, ofText s = .ok i ↔ Spells (Text.trim s) i) ∧
      ((∃ e, ofText s = .error e) ↔ ¬ ∃ i, Spells (Text.trim s) i) := by
  refine ⟨fun i => ofText_eq_ok_iff, ?_⟩
  simp only [← ofText_eq_ok_iff]
  cases ofText s with
  | ok i => simp
  | error e => simp

end Item

end NetRanges
