import Mathlib.Data.List.TakeDrop
import Mathlib.Data.List.TakeWhile
import NetRanges.Loose.Contents
import NetRanges.Proofs.Grammar

/-!
# Tokens and items

The patterns for tokens and the grammar of items are two descriptions of nearly the same texts: a
token means an item exactly when it spells the item and holds neither a blank nor an arrow
(`Loose.classify_eq_some_iff`). Three things decide between the patterns: no sign of a separator
stands in an address, an address is no run of digits of any script, and digits of other scripts
than ASCII write no prefix length. Free text therefore has the contents that the strict reader
finds in its tight pieces (`Loose.Scanner.scan_agrees`).
-/

namespace NetRanges

namespace Loose

/-- Neither a blank nor an arrow stands in the token. -/
def Tight (t : Text) : Prop :=
  (∀ c ∈ t, Text.isBlank c = false) ∧ Text.holds Separator.arrow.text t = false

instance (t : Text) : Decidable (Tight t) :=
  inferInstanceAs (Decidable (_ ∧ _))

variable {t left right : Text} {isSeparator isRight : Char → Bool} {i : Item}

theorem isRun_iff {isMember : Char → Bool} :
    isRun isMember t = true ↔ t ≠ [] ∧ ∀ c ∈ t, isMember c = true := by
  unfold isRun
  rw [Bool.and_eq_true, Bool.not_eq_true', List.isEmpty_eq_false_iff, List.all_eq_true]

theorem isRun_of_address {a : Address} (h : Address.ofText? t = some a) :
    isRun isAddressChar t = true :=
  isRun_iff.mpr ⟨Address.ne_nil_of_ofText? h, fun _ hc => Address.isAddressChar_of_mem h hc⟩

/-! ## Digits of all scripts -/

theorem isScriptDigit_of_isDigit {c : Char} (h : c.isDigit = true) :
    Numeral.isScriptDigit c = true := by
  simp only [Char.isDigit, Bool.and_eq_true, decide_eq_true_eq] at h
  have hlow : '0'.toNat ≤ c.toNat := h.1
  have hhigh : c.toNat ≤ '9'.toNat := h.2
  simp only [Char.reduceToNat] at hlow hhigh
  unfold Numeral.isScriptDigit
  rw [List.any_eq_true]
  refine ⟨0x0030, List.mem_cons_self .., ?_⟩
  rw [Bool.and_eq_true, decide_eq_true_iff, decide_eq_true_iff]
  omega

/-- The digits of a script have none of the blanks among them. -/
theorem apart_of_scriptZeros : ∀ first ∈ Numeral.scriptZeros, ∀ blanks ∈ Text.blankIntervals,
    blanks.2 < first ∨ first + 10 ≤ blanks.1 := by
  decide

theorem isBlank_of_isScriptDigit {c : Char} (h : Numeral.isScriptDigit c = true) :
    Text.isBlank c = false := by
  obtain ⟨first, hfirst, hdigit⟩ := List.any_eq_true.mp h
  rw [Bool.and_eq_true, decide_eq_true_iff, decide_eq_true_iff] at hdigit
  unfold Text.isBlank
  rw [List.any_eq_false]
  intro blanks hblanks
  have hapart := apart_of_scriptZeros first hfirst blanks hblanks
  simp only [Bool.and_eq_true, decide_eq_true_eq]
  omega

theorem length?_eq_some_iff {k : Nat} (h : ∀ c ∈ t, Numeral.isScriptDigit c = true) :
    Block.length? t = some k ↔ Numeral.isDecimal t = true ∧ Numeral.read? 10 t = some k := by
  constructor
  · intro hk
    have hread : Numeral.read? 10 t = some k := by
      unfold Block.length? at hk
      split at hk
      · exact absurd (h '+' (List.mem_cons_self ..)) (by decide)
      · exact hk
    exact ⟨Numeral.isDecimal_iff.mpr ⟨k, hread⟩, hread⟩
  · rintro ⟨hdigits, hread⟩
    rw [Block.length?_of_isDecimal hdigits, hread]

theorem isRun_isScriptDigit_of_isDecimal (h : Numeral.isDecimal t = true) :
    isRun Numeral.isScriptDigit t = true := by
  have hrun : isRun Char.isDigit t = true := h
  obtain ⟨hne, hdigits⟩ := isRun_iff.mp hrun
  exact isRun_iff.mpr ⟨hne, fun c hc => isScriptDigit_of_isDigit (hdigits c hc)⟩

/-! ## The two sides of a pattern -/

theorem sides?_append {c : Char} (hleft : isRun isAddressChar left = true)
    (hplain : ∀ d, isAddressChar d = true → isSeparator d = false) (hc : isSeparator c = true) :
    sides? isSeparator isRight (left ++ [c] ++ right) =
      if isRun isRight right then some (left, right) else none := by
  have hpass : ∀ d ∈ left, (!isSeparator d) = true := by
    intro d hd
    rw [hplain d ((isRun_iff.mp hleft).2 d hd)]
    rfl
  have hspan : (left ++ [c] ++ right).span (fun d => !isSeparator d) = (left, c :: right) := by
    rw [List.append_assoc, List.singleton_append, List.span_eq_takeWhile_dropWhile,
      List.takeWhile_append_of_pos hpass, List.dropWhile_append_of_pos hpass,
      List.takeWhile_cons, List.dropWhile_cons, hc]
    simp only [Bool.not_true, Bool.false_eq_true, if_false, List.append_nil]
  unfold sides?
  rw [hspan]
  simp only [hleft, Bool.true_and]

theorem sides?_eq_none (h : ∀ c ∈ t, isSeparator c = false) :
    sides? isSeparator isRight t = none := by
  have hdrop : t.dropWhile (fun c => !isSeparator c) = [] := by
    rw [List.dropWhile_eq_nil_iff]
    intro c hc
    rw [h c hc]
    rfl
  unfold sides?
  rw [List.span_eq_takeWhile_dropWhile, hdrop]

theorem exists_of_sides? (h : sides? isSeparator isRight t = some (left, right)) :
    ∃ c, isSeparator c = true ∧ t = left ++ [c] ++ right ∧
      (∀ d ∈ left, isAddressChar d = true) ∧ ∀ d ∈ right, isRight d = true := by
  unfold sides? at h
  rw [List.span_eq_takeWhile_dropWhile] at h
  split at h
  · rename_i front c back hspan
    obtain ⟨rfl, hback⟩ := Prod.mk.inj hspan
    split at h
    · rename_i hruns
      obtain ⟨rfl, rfl⟩ := Prod.mk.inj (Option.some.inj h)
      rw [Bool.and_eq_true] at hruns
      have hc : isSeparator c = true := by
        have hhead := List.head?_dropWhile_not (fun c => !isSeparator c) t
        rw [hback] at hhead
        simpa using hhead
      refine ⟨c, hc, ?_, (isRun_iff.mp hruns.1).2, (isRun_iff.mp hruns.2).2⟩
      rw [List.append_assoc, List.singleton_append, ← hback, List.takeWhile_append_dropWhile]
    · cases h
  · cases h

/-! ## Tokens that mean an item -/

theorem tight_of_forall (hblank : ∀ c ∈ t, Text.isBlank c = false) (harrow : '>' ∉ t) :
    Tight t := by
  refine ⟨hblank, ?_⟩
  cases h : Text.holds Separator.arrow.text t with
  | false => rfl
  | true => exact absurd (Parting.mark_mem_of_holds h) harrow

theorem tight_of_isAddressChar (h : ∀ c ∈ t, isAddressChar c = true) : Tight t := by
  refine tight_of_forall (fun c hc => isBlank_of_isAddressChar (h c hc)) ?_
  exact (Text.plain_of_isAddressChar h).not_mem (by decide)

theorem tight_append {c : Char} (hleft : ∀ d ∈ left, isAddressChar d = true)
    (hright : ∀ d ∈ right, isAddressChar d = true) (hblank : Text.isBlank c = false)
    (hc : c ≠ '>') : Tight (left ++ [c] ++ right) := by
  have hpl := (Text.plain_of_isAddressChar hleft).not_mem (c := '>') (by decide)
  have hpr := (Text.plain_of_isAddressChar hright).not_mem (c := '>') (by decide)
  refine tight_of_forall ?_ ?_
  · rw [List.forall_mem_append, List.forall_mem_append, List.forall_mem_singleton]
    exact ⟨⟨(tight_of_isAddressChar hleft).1, hblank⟩, (tight_of_isAddressChar hright).1⟩
  · simp only [List.mem_append, List.mem_singleton, hpl, hpr, hc.symm, or_self, not_false_eq_true]

theorem bounds?_eq_some_iff {r : Range} : bounds? left right = some r ↔
    ∃ a b, Address.ofText? left = some a ∧ Address.ofText? right = some b ∧ r.Spans a b := by
  rw [← Item.bounds_eq_ok_iff]
  exact toOption_eq_some_iff

/-- A character that separates two sides is the text of a separator, no blank and no arrowhead. -/
theorem exists_separator {c : Char} (hc : isDash c = true ∨ isSlash c = true) :
    ∃ s : Separator, s.text = [c] ∧ Text.isBlank c = false ∧ c ≠ '>' := by
  simp only [isDash, isSlash, Bool.or_eq_true, beq_iff_eq] at hc
  rcases hc with (rfl | rfl) | rfl
  · exact ⟨.dash, rfl, by decide, by decide⟩
  · exact ⟨.enDash, rfl, by decide, by decide⟩
  · exact ⟨.slash, rfl, by decide, by decide⟩

theorem spells_of_sides? {r : Range}
    (hsides : sides? isSeparator isAddressChar t = some (left, right))
    (hc : ∀ c, isSeparator c = true → isDash c = true ∨ isSlash c = true)
    (hr : bounds? left right = some r) : Tight t ∧ Item.Spells t (.range r) := by
  obtain ⟨c, hmem, rfl, hleft, hright⟩ := exists_of_sides? hsides
  obtain ⟨s, hs, hblank, harrow⟩ := exists_separator (hc c hmem)
  obtain ⟨a, b, ha, hb, hspans⟩ := bounds?_eq_some_iff.mp hr
  have hspells := Item.Spells.bounds s ha Text.blank_nil Text.blank_nil hb hspans
  rw [List.append_nil, List.append_nil, hs] at hspells
  exact ⟨tight_append hleft hright hblank harrow, hspells⟩

/-- Around a slash with digits behind it, the block reader finds an address and a length. -/
theorem blockRange?_eq_some_iff {r : Range} (hleft : ∀ c ∈ left, isAddressChar c = true)
    (hright : ∀ c ∈ right, Numeral.isScriptDigit c = true) :
    blockRange? (left ++ ['/'] ++ right) = some r ↔
      ∃ a k, Address.ofText? left = some a ∧ Numeral.isDecimal right = true ∧
        Numeral.read? 10 right = some k ∧ k ≤ a.family.bits ∧ r = (Block.mk a k).range := by
  have hblankleft : ∀ c ∈ left, Text.isBlank c = false :=
    fun c hc => isBlank_of_isAddressChar (hleft c hc)
  have hblankright : ∀ c ∈ right, Text.isBlank c = false :=
    fun c hc => isBlank_of_isScriptDigit (hright c hc)
  have htrim : Text.trim (left ++ ['/'] ++ right) = left ++ ['/'] ++ right := by
    apply Text.trim_eq_self
    rw [List.forall_mem_append, List.forall_mem_append, List.forall_mem_singleton]
    exact ⟨⟨hblankleft, by decide⟩, hblankright⟩
  have hcut : Text.cut? Separator.slash.text (left ++ ['/'] ++ right) = some (left, right) :=
    Text.cut?_of_not_mem ((Text.plain_of_isAddressChar hleft).not_mem (by decide)) right
  have hblock (b : Block) := Block.ofText_eq_ok_iff (b := b) htrim hcut
  rw [Text.trim_eq_self hblankleft, Text.trim_eq_self hblankright] at hblock
  simp only [length?_eq_some_iff hright, and_assoc] at hblock
  unfold blockRange?
  rw [Option.map_eq_some_iff]
  constructor
  · rintro ⟨b, hb, rfl⟩
    obtain ⟨a, k, ha, hdigits, hk, hle, rfl⟩ := (hblock b).mp (toOption_eq_some_iff.mp hb)
    exact ⟨a, k, ha, hdigits, hk, hle, rfl⟩
  · rintro ⟨a, k, ha, hdigits, hk, hle, rfl⟩
    have hb := (hblock ⟨a, k⟩).mpr ⟨a, k, ha, hdigits, hk, hle, rfl⟩
    exact ⟨⟨a, k⟩, toOption_eq_some_iff.mpr hb, rfl⟩

theorem spells_of_classify (h : classify t = some i) : Tight t ∧ Item.Spells t i := by
  -- One case for each pattern, in the order in which they are tried.
  unfold classify at h
  split at h
  · rename_i left right hsides
    obtain ⟨r, hr, rfl⟩ := Option.map_eq_some_iff.mp h
    exact spells_of_sides? hsides (fun _ => Or.inl) hr
  · split at h
    · rename_i sides hsides
      obtain ⟨c, hc, rfl, hleft, hright⟩ := exists_of_sides? hsides
      obtain ⟨r, hr, rfl⟩ := Option.map_eq_some_iff.mp h
      obtain rfl : c = '/' := eq_of_beq hc
      obtain ⟨a, k, ha, hdigits, hk, hle, rfl⟩ := (blockRange?_eq_some_iff hleft hright).mp hr
      have hspells := Item.Spells.block ha Text.blank_nil Text.blank_nil hdigits hk hle
        (Range.isBlockOf_range hle)
      rw [List.append_nil, List.append_nil] at hspells
      exact ⟨tight_append hleft (Text.isAddressChar_of_isDecimal hdigits) (by decide) (by decide),
        hspells⟩
    · split at h
      · rename_i left right hsides
        obtain ⟨r, hr, rfl⟩ := Option.map_eq_some_iff.mp h
        exact spells_of_sides? hsides (fun _ => Or.inr) hr
      · split at h
        · rename_i hrun
          obtain ⟨a, ha, rfl⟩ := Option.map_eq_some_iff.mp h
          exact ⟨tight_of_isAddressChar (isRun_iff.mp hrun).2, .address ha⟩
        · cases h

/-! ## Items that a token means -/

theorem isDash_of_isAddressChar {c : Char} (h : isAddressChar c = true) : isDash c = false := by
  have hsign := isSign_of_isAddressChar h
  simp only [Separator.isSign, Bool.or_eq_false_iff] at hsign
  simp only [isDash, hsign, Bool.or_self]

theorem isSlash_of_isAddressChar {c : Char} (h : isAddressChar c = true) : isSlash c = false := by
  have hsign := isSign_of_isAddressChar h
  simp only [Separator.isSign, Bool.or_eq_false_iff] at hsign
  simp only [isSlash, hsign]

theorem classify_address (h : isRun isAddressChar t = true) :
    classify t = (Address.ofText? t).map .address := by
  have hchars := (isRun_iff.mp h).2
  have hdash : ∀ c ∈ t, isDash c = false := fun c hc => isDash_of_isAddressChar (hchars c hc)
  have hslash : ∀ c ∈ t, isSlash c = false := fun c hc => isSlash_of_isAddressChar (hchars c hc)
  unfold classify
  simp only [sides?_eq_none hdash, sides?_eq_none hslash, h, if_true]

theorem classify_dash {c : Char} (hleft : isRun isAddressChar left = true)
    (hc : isDash c = true) (hright : isRun isAddressChar right = true) :
    classify (left ++ [c] ++ right) = (bounds? left right).map .range := by
  unfold classify
  simp only [sides?_append hleft (fun _ => isDash_of_isAddressChar) hc, hright, if_true]

/-- No dash stands beside a slash between two runs of characters of addresses. -/
theorem sides?_dash_of_slash (hleft : isRun isAddressChar left = true)
    (hright : ∀ c ∈ right, isAddressChar c = true) :
    sides? isDash isAddressChar (left ++ ['/'] ++ right) = none := by
  apply sides?_eq_none
  rw [List.forall_mem_append, List.forall_mem_append, List.forall_mem_singleton]
  refine ⟨⟨fun c hc => ?_, by decide⟩, fun c hc => isDash_of_isAddressChar (hright c hc)⟩
  exact isDash_of_isAddressChar ((isRun_iff.mp hleft).2 c hc)

theorem classify_digits (hleft : isRun isAddressChar left = true)
    (hright : Numeral.isDecimal right = true) :
    classify (left ++ ['/'] ++ right) = (blockRange? (left ++ ['/'] ++ right)).map .range := by
  have hslash : isSlash '/' = true := rfl
  unfold classify
  simp only [sides?_dash_of_slash hleft (Text.isAddressChar_of_isDecimal hright),
    sides?_append hleft (fun _ => isSlash_of_isAddressChar) hslash,
    isRun_isScriptDigit_of_isDecimal hright, if_true]

theorem classify_slash (hleft : isRun isAddressChar left = true)
    (hright : isRun isAddressChar right = true)
    (hdigits : isRun Numeral.isScriptDigit right = false) :
    classify (left ++ ['/'] ++ right) = (bounds? left right).map .range := by
  have hslash : isSlash '/' = true := rfl
  unfold classify
  simp only [sides?_dash_of_slash hleft (isRun_iff.mp hright).2,
    sides?_append hleft (fun _ => isSlash_of_isAddressChar) hslash, hdigits, hright,
    Bool.false_eq_true, if_false, if_true]

theorem eq_nil_of_blank {w : Text} (hw : Text.Blank w) (h : ∀ c ∈ w, Text.isBlank c = false) :
    w = [] := by
  refine List.eq_nil_iff_forall_not_mem.mpr fun c hc => ?_
  have hblank := h c hc
  rw [hw c hc] at hblank
  cases hblank

/-- In a tight text there are no blanks around a separator. -/
theorem Tight.eq_nil {w w' sep : Text} (h : Tight (left ++ w ++ sep ++ w' ++ right))
    (hw : Text.Blank w) (hw' : Text.Blank w') : w = [] ∧ w' = [] := by
  constructor
  · refine eq_nil_of_blank hw fun c hc => h.1 c ?_
    simp only [List.mem_append, hc, or_true, true_or]
  · refine eq_nil_of_blank hw' fun c hc => h.1 c ?_
    simp only [List.mem_append, hc, or_true, true_or]

/-- A tight text that spells an item matches one pattern, and none of those tried before it. -/
theorem classify_of_spells (ht : Tight t) (h : Item.Spells t i) : classify t = some i := by
  cases h with
  | address ha =>
    rw [classify_address (isRun_of_address ha), ha]
    rfl
  | @block left w w' digits a k r ha hw hw' hdigits hk hle hr =>
    obtain ⟨rfl, rfl⟩ := ht.eq_nil hw hw'
    have hleft := isRun_of_address ha
    have hright := isRun_isScriptDigit_of_isDecimal hdigits
    have hrange : blockRange? (left ++ ['/'] ++ digits) = some r :=
      (blockRange?_eq_some_iff (isRun_iff.mp hleft).2 (isRun_iff.mp hright).2).mpr
        ⟨a, k, ha, hdigits, hk, hle, (Range.isBlockOf_iff hle).mp hr⟩
    rw [List.append_nil, List.append_nil, Separator.text, classify_digits hleft hdigits, hrange]
    rfl
  | @bounds left w w' right a b r s ha hw hw' hb hr =>
    obtain ⟨rfl, rfl⟩ := ht.eq_nil hw hw'
    have hbounds : bounds? left right = some r := bounds?_eq_some_iff.mpr ⟨a, b, ha, hb, hr⟩
    have hleft := isRun_of_address ha
    have hright := isRun_of_address hb
    rw [List.append_nil, List.append_nil] at ht ⊢
    cases s with
    | arrow =>
      have harrow := ht.2
      rw [Text.holds_append] at harrow
      cases harrow
    | slash =>
      -- The pattern with digits comes first, but an address is no run of digits.
      have hdigits : isRun Numeral.isScriptDigit right = false := by
        unfold isRun
        rw [Address.all_eq_false hb (by decide) (by decide), Bool.and_false]
      rw [Separator.text, classify_slash hleft hright hdigits, hbounds]
      rfl
    | dash =>
      rw [Separator.text, classify_dash hleft (by decide) hright, hbounds]
      rfl
    | enDash =>
      rw [Separator.text, classify_dash hleft (by decide) hright, hbounds]
      rfl

/-- A token means what it spells, as long as it is tight. -/
theorem classify_eq_some_iff : classify t = some i ↔ Tight t ∧ Item.Spells t i :=
  ⟨spells_of_classify, fun h => classify_of_spells h.1 h.2⟩

/-! ## Free text and strict reading -/

/-- A tight token means the item that the strict reader finds, any other token means nothing. -/
theorem classify_eq_ite (t : Text) :
    classify t = if decide (Tight t) then (Item.ofText t).toOption else none := by
  refine Option.ext fun i => ?_
  rw [classify_eq_some_iff]
  by_cases ht : Tight t
  · rw [decide_eq_true ht, if_pos rfl, toOption_eq_some_iff, Item.ofText_eq_ok_iff,
      Text.trim_eq_self ht.1, and_iff_right ht]
  · rw [decide_eq_false ht, if_neg Bool.false_ne_true]
    exact ⟨fun h => absurd h.1 ht, nofun⟩

/-- The items that the strict reader finds in the tight pieces of a text, in their order. -/
def tightItems (t : Text) : List Item :=
  ((Text.pieces t).filter fun p => decide (Tight p)).filterMap fun p => (Item.ofText p).toOption

theorem Scanner.scan_eq (s : Scanner) (t : Text) : s.scan t = .ofItems (tightItems t) := by
  have hclassify : classify = fun p =>
      if decide (Tight p) then (Item.ofText p).toOption else none := funext classify_eq_ite
  unfold scan tightItems
  rw [classifyAll_eq_map, List.filterMap_map, Function.id_comp, List.filterMap_filter, hclassify]

theorem eq_of_ofTexts {ts : List Text} {rs : List Range} (h : Range.ofTexts ts = .ok rs) :
    rs = (ts.filterMap fun t => (Item.ofText t).toOption).map Item.toRange := by
  induction ts generalizing rs with
  | nil =>
    cases h
    rfl
  | cons t ts ih =>
    rw [Range.ofTexts_cons] at h
    obtain ⟨r, hr, h⟩ := bind_eq_ok_iff.mp h
    obtain ⟨rest, hrest, rfl⟩ := map_eq_ok_iff.mp h
    obtain ⟨i, hi, rfl⟩ := map_eq_ok_iff.mp hr
    rw [ih hrest, List.filterMap_cons, hi]
    rfl

/-- Addresses and ranges kept apart are together the ranges of the items. -/
theorem Contents.perm_ofItems (items : List Item) :
    ((ofItems items).addresses.map Range.single ++ (ofItems items).ranges).Perm
      (items.map Item.toRange) := by
  unfold ofItems
  induction items with
  | nil => exact .nil
  | cons i items ih =>
    cases i with
    | address a => exact ih.cons (Range.single a)
    | range r => exact List.perm_middle.trans (ih.cons r)

/-- When all pieces are tight, free text gives the set that is read strictly. -/
theorem Scanner.toRangeSet_eq (s : Scanner) {set : RangeSet} (h : RangeSet.ofText t = .ok set)
    (ht : ∀ p ∈ Text.pieces t, Tight p) : (s.scan t).toRangeSet = set := by
  have hfilter : (Text.pieces t).filter (fun p => decide (Tight p)) = Text.pieces t :=
    List.filter_eq_self.mpr fun p hp => decide_eq_true (ht p hp)
  obtain ⟨rs, hranges, rfl⟩ := map_eq_ok_iff.mp h
  have hrs : rs = (tightItems t).map Item.toRange := by
    unfold tightItems
    rw [hfilter]
    exact eq_of_ofTexts hranges
  rw [scan_eq, hrs]
  exact RangeSet.ofRanges_congr (Contents.perm_ofItems _) {}

/-- **The scanner agrees with the strict reader.** Whatever its limit for sharing the work, it
finds in a text the addresses and ranges that the strict reader finds in the tight pieces, in
their order and with repetitions. If all pieces are tight and none is refused, the set of what it
finds is the set that is read strictly. -/
theorem Scanner.scan_agrees (s : Scanner) (t : Text) :
    (s.scan t).addresses = (tightItems t).filterMap Item.address? ∧
      (s.scan t).ranges = (tightItems t).filterMap Item.range? ∧
      ∀ set, RangeSet.ofText t = .ok set → (∀ p ∈ Text.pieces t, Tight p) →
        (s.scan t).toRangeSet = set := by
  refine ⟨?_, ?_, fun set => s.toRangeSet_eq⟩
  · rw [scan_eq]
    rfl
  · rw [scan_eq]
    rfl

end Loose

end NetRanges
