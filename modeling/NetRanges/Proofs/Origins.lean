import NetRanges.Json.Records
import NetRanges.Proofs.Answers
import NetRanges.Proofs.Closures
import NetRanges.Proofs.Records
import NetRanges.Proofs.Tokens

/-!
# Where ranges come from

The type of ranges has no room for ends in the wrong order, and `Range.spanning` puts two numbers
in order and cuts them off at the top of the family. No operation relies on that. Here each of them
is taken as writing down two addresses and nothing more (`Origin.Writes`): numbers lose the bits
that the family has no room for, and two addresses are exchanged only where the operation compares
them. What is written down in this way is in order already, for one reason in each operation
(`Origin.Writes.inOrder`), and it is the ends of the range that the operation gives
(`Origin.writes_ends`). An `Origin` composes the operations as a tree, so this holds of every range
that any composition of them leads to.
-/

namespace NetRanges

/-- Two addresses written down as the ends of a range. Nothing is known about them. -/
structure Ends where
  lower : Address
  upper : Address
deriving DecidableEq

namespace Ends

/-- Both ends belong to one family, and the upper one does not come before the lower one. -/
structure InOrder (e : Ends) : Prop where
  same_family : e.lower.family = e.upper.family
  lower_le_upper : e.lower.value ≤ e.upper.value

/-- Two numbers as addresses of a family, each without the bits that do not fit. -/
def ofNats (family : Family) (first last : Nat) : Ends :=
  ⟨.ofNat family first, .ofNat family last⟩

/-- Two addresses, exchanged if the second one comes before the first. -/
def exchange (a b : Address) : Ends :=
  if b.value < a.value then ⟨b, a⟩ else ⟨a, b⟩

variable {a b : Address} {family : Family} {m n : Nat}

theorem inOrder_exchange (h : a.family = b.family) : (exchange a b).InOrder := by
  unfold exchange
  by_cases hlt : b.value < a.value
  · rw [if_pos hlt]
    exact ⟨h.symm, Nat.le_of_lt hlt⟩
  · rw [if_neg hlt]
    exact ⟨h, Nat.le_of_not_lt hlt⟩

theorem inOrder_ofNats (hle : m ≤ n) (hlt : n < family.size) : (ofNats family m n).InOrder := by
  refine ⟨rfl, ?_⟩
  show (Address.ofNat family m).value ≤ (Address.ofNat family n).value
  rwa [Address.value_ofNat (Nat.lt_of_le_of_lt hle hlt), Address.value_ofNat hlt]

theorem exchange_ofNat (hle : m ≤ n) (hlt : n < family.size) :
    exchange (.ofNat family m) (.ofNat family n) = ofNats family m n := by
  have hord := (inOrder_ofNats hle hlt).lower_le_upper
  exact if_neg (Nat.not_lt.mpr hord)

end Ends

/-- The ends that an operation writes down for a block. -/
def Block.ends (b : Block) : Ends :=
  .ofNats b.family b.extent.first b.extent.last

/-- The ends that reading an item writes down where the item is a range. -/
inductive Item.Writes (t : Text) : Ends → Prop
  /-- The whole text is read as a block. -/
  | block {b : Block} (hb : Block.ofText t = .ok b) : Writes t b.ends
  /-- Two addresses of one family stand around a separator. -/
  | bounds {p : Parting} {a b : Address} (hp : Parting.ofText t = .ok (some p))
      (ha : Address.ofText? (Text.trim p.left) = some a)
      (hb : Address.ofText? (Text.trim p.right) = some b) (hfam : a.family = b.family) :
      Writes t (.exchange a b)

/-- The ends that reading a record writes down. -/
def Record.Parts.ends (p : Record.Parts) : Ends :=
  .exchange (.ofNat p.family p.first.toNat) (.ofNat p.family p.second.toNat)

/-- A way to come by ranges: an operation with its input, where ranges that it works on come from
somewhere else in turn. -/
inductive Origin where
  /-- Two addresses in either order. -/
  | between (a b : Address)
  /-- One address. -/
  | single (a : Address)
  /-- A block, whatever its length is. -/
  | block (b : Block)
  /-- The closed form of a bounded range, if the check accepts it. -/
  | closure (b : Bounded)
  /-- An item that is a range. -/
  | item (t : Text)
  /-- The text of a range, or of an address for its own range. -/
  | text (t : Text)
  /-- Texts of ranges, one by one. -/
  | texts (ts : List Text)
  /-- The text of a set. -/
  | setText (t : Text)
  /-- The JSON form of a range. -/
  | json (v : Json)
  /-- The only record of some bytes. -/
  | record (bs : Bytes)
  /-- All records of some bytes. -/
  | records (bs : Bytes)
  /-- The ranges in the contents of a free text. -/
  | contents (s : Loose.Scanner) (t : Text)
  /-- The set of the contents of a free text. -/
  | contentsSet (s : Loose.Scanner) (t : Text)
  /-- The extents of a cover. -/
  | cover (family : Family) (o : Origin)
  /-- The joined ranges of a compiled matcher. -/
  | compiled (options : Options) (o : Origin)
  /-- The ranges of a set. -/
  | set (options : Options) (o : Origin)
  /-- Those ranges of another origin that someone picks. -/
  | picked (keep : Range → Bool) (o : Origin)
  /-- Ranges of two origins in one list. -/
  | both (o o' : Origin)

namespace Origin

/-- The ranges that come from an origin; none where an input is refused. -/
def ranges : Origin → List Range
  | between a b => (Range.between a b).toOption.toList
  | single a => [.single a]
  | block b => [b.range]
  | closure b => (b.check.toOption.bind Bounded.closure?).toList
  | item t => ((Item.ofText t).toOption.bind Item.range?).toList
  | text t => (Range.ofText t).toOption.toList
  | texts ts => (Range.ofTexts ts).toOption.getD []
  | setText t => ((RangeSet.ofText t).map RangeSet.ranges).toOption.getD []
  | json v => (Range.ofJson v).toOption.toList
  | record bs => (Record.decode bs).toOption.toList
  | records bs => (Record.decodeAll bs).toOption.getD []
  | contents s t => (s.scan t).ranges
  | contentsSet s t => (s.scan t).toRangeSet.ranges
  | cover family o => (Cover.ofRanges family o.ranges).ranges
  | compiled options o => (Compiled.ofRanges o.ranges options).ranges
  | set options o => (RangeSet.ofRanges o.ranges options).ranges
  | picked keep o => o.ranges.filter keep
  | both o o' => o.ranges ++ o'.ranges

/-- An operation writes down two addresses as the ends of a range. Most operations leave this to
one of the first four or to the reader of items. -/
inductive Writes : Origin → Ends → Prop
  /-- Two addresses of one family are compared. -/
  | between {a b : Address} (hfam : a.family = b.family) : Writes (.between a b) (.exchange a b)
  | single (a : Address) : Writes (.single a) ⟨a, a⟩
  | block (b : Block) : Writes (.block b) b.ends
  /-- The least value and the one before the limit are compared as addresses. -/
  | closure {b : Bounded} (hcheck : b.check = .ok b) (h : b.least < b.limit) :
      Writes (.closure b) (.exchange (.ofNat b.family b.least) (.ofNat b.family (b.limit - 1)))
  | item {t : Text} {e : Ends} (h : Item.Writes (Text.trim t) e) : Writes (.item t) e
  | text {t : Text} {e : Ends} (h : Item.Writes (Text.trim t) e) : Writes (.text t) e
  | address {t : Text} {a : Address} (ha : Address.ofText? (Text.trim t) = some a) :
      Writes (.text t) ⟨a, a⟩
  | texts {t : Text} {ts : List Text} {e : Ends} (ht : t ∈ ts) (h : Writes (.text t) e) :
      Writes (.texts ts) e
  | setText {t p : Text} {e : Ends} (hp : p ∈ Text.pieces t) (h : Writes (.text p) e) :
      Writes (.setText t) e
  | json {t : Text} {e : Ends} (h : Writes (.text t) e) : Writes (.json (.string t)) e
  | record (p : Record.Parts) : Writes (.record p.bytes) p.ends
  | records {p : Record.Parts} {ps : List Record.Parts} (hp : p ∈ ps) :
      Writes (.records (ps.flatMap Record.Parts.bytes)) p.ends
  | contents {s : Loose.Scanner} {t p : Text} {e : Ends} (hp : p ∈ Text.pieces t)
      (h : Writes (.item p) e) : Writes (.contents s t) e
  | contentsSet {s : Loose.Scanner} {t p : Text} {e : Ends} (hp : p ∈ Text.pieces t)
      (h : Writes (.text p) e) : Writes (.contentsSet s t) e
  /-- The numbers of an extent are taken as they are. -/
  | cover {family : Family} {o : Origin} {e : Extent}
      (he : e ∈ (Cover.ofRanges family o.ranges).extents) :
      Writes (.cover family o) (.ofNats family e.first e.last)
  | compiled {options : Options} {family : Family} {o : Origin} {e : Ends}
      (h : Writes (.cover family o) e) : Writes (.compiled options o) e
  | set {options : Options} {o : Origin} {e : Ends} (h : Writes o e) : Writes (.set options o) e
  | picked {keep : Range → Bool} {o : Origin} {e : Ends} (h : Writes o e) :
      Writes (.picked keep o) e
  | left {o o' : Origin} {e : Ends} (h : Writes o e) : Writes (.both o o') e
  | right {o o' : Origin} {e : Ends} (h : Writes o' e) : Writes (.both o o') e

end Origin

/-! ## What is written down is in order -/

theorem Block.inOrder_ends (b : Block) : b.ends.InOrder :=
  Ends.inOrder_ofNats b.extent_first_le b.extent_last_lt

theorem Item.Writes.inOrder {t : Text} {e : Ends} (h : Item.Writes t e) : e.InOrder := by
  cases h with
  | @block b hb => exact b.inOrder_ends
  | bounds hp ha hb hfam => exact Ends.inOrder_exchange hfam

namespace Origin

theorem Writes.inOrder {o : Origin} {e : Ends} (h : o.Writes e) : e.InOrder := by
  -- Nothing is needed of the origins that an operation works on, except where their ranges are
  -- handed on.
  induction h with
  | between hfam => exact Ends.inOrder_exchange hfam
  | single a => exact ⟨rfl, Nat.le_refl _⟩
  | block b => exact b.inOrder_ends
  | closure hcheck h => exact Ends.inOrder_exchange rfl
  | item h => exact h.inOrder
  | text h => exact h.inOrder
  | address ha => exact ⟨rfl, Nat.le_refl _⟩
  | record p => exact Ends.inOrder_exchange rfl
  | records hp => exact Ends.inOrder_exchange rfl
  | @cover family o e he =>
    exact Ends.inOrder_ofNats ((Cover.gapped_ofRanges family o.ranges).first_le_last e he)
      (Cover.last_lt_of_mem family o.ranges he)
  | texts ht h ih => exact ih
  | setText hp h ih => exact ih
  | json h ih => exact ih
  | contents hp h ih => exact ih
  | contentsSet hp h ih => exact ih
  | compiled h ih => exact ih
  | set h ih => exact ih
  | picked h ih => exact ih
  | left h ih => exact ih
  | right h ih => exact ih

end Origin

/-! ## What is written down are the ends -/

namespace Range

variable {r : Range} {a b : Address} {family : Family} {m n : Nat}

/-- The two ends of a range. -/
def ends (r : Range) : Ends :=
  ⟨r.lower, r.upper⟩

theorem Spans.ends_eq (h : r.Spans a b) : r.ends = .exchange a b := by
  have hfam := h.family_eq
  have hfirst := h.first_eq
  have hlast := h.last_eq
  unfold ends Ends.exchange
  by_cases hlt : b.value < a.value
  · rw [Nat.min_eq_right (Nat.le_of_lt hlt)] at hfirst
    rw [Nat.max_eq_left (Nat.le_of_lt hlt)] at hlast
    rw [if_pos hlt, Ends.mk.injEq]
    exact ⟨Address.eq_of_value_eq (hfam.trans h.same_family) hfirst,
      Address.eq_of_value_eq hfam hlast⟩
  · have hle := Nat.le_of_not_lt hlt
    rw [Nat.min_eq_left hle] at hfirst
    rw [Nat.max_eq_right hle] at hlast
    rw [if_neg hlt, Ends.mk.injEq]
    exact ⟨Address.eq_of_value_eq hfam hfirst,
      Address.eq_of_value_eq (hfam.trans h.same_family) hlast⟩

theorem ends_eq_ofNats (r : Range) : r.ends = .ofNats r.family r.first r.last := by
  have hlower := r.lower.ofNat_value
  have hupper := r.upper.ofNat_value
  exact (congr (congrArg Ends.mk hlower) hupper).symm

theorem ends_spanning (hle : m ≤ n) (hlt : n < family.size) :
    (spanning family m n).ends = .ofNats family m n := by
  have hext := toExtent_spanning hle hlt
  have hfirst := congrArg Extent.first hext
  have hlast := congrArg Extent.last hext
  rw [ends_eq_ofNats, hfirst, hlast]
  rfl

theorem ends_single (a : Address) : (single a).ends = ⟨a, a⟩ := by
  unfold single
  rw [ends_spanning (Nat.le_refl _) a.value_lt, Ends.ofNats, Address.ofNat_value]

end Range

theorem Block.ends_range (b : Block) : b.range.ends = b.ends :=
  Range.ends_spanning b.extent_first_le b.extent_last_lt

namespace Bounded

variable {b : Bounded} {r : Range}

theorem ends_of_closure? (hcheck : b.check = .ok b) (h : b.closure? = some r) :
    b.least < b.limit ∧
      r.ends = .exchange (.ofNat b.family b.least) (.ofNat b.family (b.limit - 1)) := by
  obtain ⟨hlt, hfam, hext⟩ := extent_of_closure? hcheck h
  have hlimit := limit_le_size hcheck
  have hfirst : r.first = b.least := congrArg Extent.first hext
  have hlast : r.last = b.limit - 1 := congrArg Extent.last hext
  refine ⟨hlt, ?_⟩
  rw [r.ends_eq_ofNats, hfam, hfirst, hlast, Ends.exchange_ofNat (by omega) (by omega)]

end Bounded

namespace Item

variable {t : Text} {p : Parting} {r : Range}

theorem writes_of_ofParting (hp : Parting.ofText t = .ok (some p)) (h : ofParting t p = .ok r) :
    Writes t r.ends := by
  unfold ofParting at h
  simp only at h
  split at h
  · cases h
  · split at h
    · obtain ⟨b, hb, rfl⟩ := map_eq_ok_iff.mp h
      rw [b.ends_range]
      exact .block hb
    · obtain ⟨a, b, ha, hb, hspans⟩ := bounds_eq_ok_iff.mp h
      rw [hspans.ends_eq]
      exact .bounds hp ha hb hspans.same_family

theorem writes_of_ofText (h : ofText t = .ok (.range r)) : Writes (Text.trim t) r.ends := by
  rw [ofText_eq (trim_ne_nil_of_ofText h)] at h
  obtain ⟨found, hp, h⟩ := bind_eq_ok_iff.mp h
  cases found with
  | none =>
    obtain ⟨a, -, ha⟩ := map_eq_ok_iff.mp h
    cases ha
  | some p =>
    obtain ⟨s, hs, hr⟩ := map_eq_ok_iff.mp h
    cases hr
    exact writes_of_ofParting hp hs

theorem eq_of_range? {i : Item} (h : i.range? = some r) : i = .range r := by
  cases i with
  | address a => cases h
  | range s =>
    cases h
    rfl

theorem address_of_ofText {a : Address} (h : ofText t = .ok (.address a)) :
    Address.ofText? (Text.trim t) = some a := by
  have hspells := spells_of_ofText h
  generalize Text.trim t = u at hspells ⊢
  cases hspells with
  | address ha => exact ha

end Item

theorem Range.exists_of_mem_ofTexts {ts : List Text} {rs : List Range} {r : Range}
    (h : ofTexts ts = .ok rs) (hr : r ∈ rs) : ∃ t ∈ ts, ofText t = .ok r := by
  rw [Loose.eq_of_ofTexts h] at hr
  obtain ⟨i, hi, rfl⟩ := List.mem_map.mp hr
  obtain ⟨t, ht, hread⟩ := List.mem_filterMap.mp hi
  exact ⟨t, ht, map_eq_ok_iff.mpr ⟨i, toOption_eq_some_iff.mp hread, rfl⟩⟩

theorem Range.exists_of_ofJson {v : Json} {r : Range} (h : ofJson v = .ok r) :
    ∃ t, v = .string t ∧ ofText t = .ok r := by
  unfold ofJson at h
  split at h
  · rename_i t
    unfold Json.checked at h
    split at h
    · rename_i s hs
      cases h
      exact ⟨t, rfl, hs⟩
    · cases h
  · cases h

theorem Record.Parts.ends_range (p : Record.Parts) : p.range.ends = p.ends :=
  (Range.between_eq_ok_iff.mp p.between_eq).ends_eq

theorem Loose.exists_of_mem_tightItems {t : Text} {i : Item} (h : i ∈ tightItems t) :
    ∃ p ∈ Text.pieces t, Item.ofText p = .ok i := by
  obtain ⟨p, hp, hi⟩ := List.mem_filterMap.mp h
  exact ⟨p, (List.mem_filter.mp hp).1, toOption_eq_some_iff.mp hi⟩

namespace Origin

variable {t : Text} {r : Range} {rs : List Range}

theorem writes_between {a b : Address} (h : Range.between a b = .ok r) :
    (between a b).Writes r.ends := by
  have hspans := Range.between_eq_ok_iff.mp h
  rw [hspans.ends_eq]
  exact .between hspans.same_family

theorem writes_single (a : Address) : (single a).Writes (Range.single a).ends := by
  rw [Range.ends_single]
  exact .single a

theorem writes_block (b : Block) : (block b).Writes b.range.ends := by
  rw [b.ends_range]
  exact .block b

theorem writes_closure {b b' : Bounded} (hb : b.check = .ok b') (h : b'.closure? = some r) :
    (closure b).Writes r.ends := by
  obtain rfl := Bounded.eq_of_check hb
  obtain ⟨hlt, hends⟩ := Bounded.ends_of_closure? hb h
  rw [hends]
  exact .closure hb hlt

theorem writes_text (h : Range.ofText t = .ok r) : (text t).Writes r.ends := by
  obtain ⟨i, hi, rfl⟩ := map_eq_ok_iff.mp h
  cases i with
  | address a =>
    show (text t).Writes (Range.single a).ends
    rw [Range.ends_single]
    exact .address (Item.address_of_ofText hi)
  | range s => exact .text (Item.writes_of_ofText hi)

theorem writes_texts {ts : List Text} (h : Range.ofTexts ts = .ok rs) (hr : r ∈ rs) :
    (texts ts).Writes r.ends := by
  obtain ⟨t, ht, hread⟩ := Range.exists_of_mem_ofTexts h hr
  exact .texts ht (writes_text hread)

theorem writes_setText {s : RangeSet} (h : RangeSet.ofText t = .ok s) (hr : r ∈ s.ranges) :
    (setText t).Writes r.ends := by
  obtain ⟨rs, hrs, rfl⟩ := map_eq_ok_iff.mp h
  obtain ⟨p, hp, hread⟩ := Range.exists_of_mem_ofTexts hrs (RangeSet.mem_ranges.mp hr)
  exact .setText hp (writes_text hread)

theorem writes_json {v : Json} (h : Range.ofJson v = .ok r) : (json v).Writes r.ends := by
  obtain ⟨t, rfl, hread⟩ := Range.exists_of_ofJson h
  exact .json (writes_text hread)

theorem writes_record {bs : Bytes} (h : Record.decode bs = .ok r) : (record bs).Writes r.ends := by
  obtain ⟨p, rfl, rfl⟩ := Record.decode_eq_ok_iff.mp h
  rw [p.ends_range]
  exact .record p

theorem writes_records {bs : Bytes} (h : Record.decodeAll bs = .ok rs) (hr : r ∈ rs) :
    (records bs).Writes r.ends := by
  obtain ⟨ps, rfl, rfl⟩ := Record.decodeAll_eq_ok_iff.mp h
  obtain ⟨p, hp, rfl⟩ := List.mem_map.mp hr
  rw [p.ends_range]
  exact .records hp

theorem writes_contents {s : Loose.Scanner} (h : r ∈ (s.scan t).ranges) :
    (contents s t).Writes r.ends := by
  rw [s.scan_eq] at h
  obtain ⟨i, hi, hr⟩ := List.mem_filterMap.mp h
  obtain rfl := Item.eq_of_range? hr
  obtain ⟨p, hp, hread⟩ := Loose.exists_of_mem_tightItems hi
  exact .contents hp (.item (Item.writes_of_ofText hread))

theorem writes_contentsSet {s : Loose.Scanner} (h : r ∈ (s.scan t).toRangeSet.ranges) :
    (contentsSet s t).Writes r.ends := by
  have hmem := RangeSet.mem_ranges.mp h
  rw [s.scan_eq, (Loose.Contents.perm_ofItems _).mem_iff] at hmem
  obtain ⟨i, hi, rfl⟩ := List.mem_map.mp hmem
  obtain ⟨p, hp, hread⟩ := Loose.exists_of_mem_tightItems hi
  exact .contentsSet hp (writes_text (map_eq_ok_iff.mpr ⟨i, hread, rfl⟩))

theorem writes_cover {family : Family} {o : Origin}
    (h : r ∈ (Cover.ofRanges family o.ranges).ranges) : (cover family o).Writes r.ends := by
  obtain ⟨rfl, he⟩ := Cover.mem_ranges.mp h
  rw [r.ends_eq_ofNats]
  exact .cover he

theorem writes_compiled {options : Options} {o : Origin}
    (h : r ∈ (Compiled.ofRanges o.ranges options).ranges) : (compiled options o).Writes r.ends := by
  rcases List.mem_append.mp h with h | h
  · exact .compiled (writes_cover h)
  · exact .compiled (writes_cover h)

theorem mem_toList_iff {ε : Type} {x : Except ε Range} :
    r ∈ x.toOption.toList ↔ x = .ok r := by
  rw [Option.mem_toList, toOption_eq_some_iff]

theorem exists_of_mem_getD {ε : Type} {x : Except ε (List Range)} (h : r ∈ x.toOption.getD []) :
    ∃ rs, x = .ok rs ∧ r ∈ rs := by
  cases x with
  | error e => cases h
  | ok rs => exact ⟨rs, rfl, h⟩

/-- The ends of a range are those that were written down for it. -/
theorem writes_ends {o : Origin} (h : r ∈ o.ranges) : o.Writes r.ends := by
  -- Covers and matchers make ranges of their own; only the last three hand on what they get.
  induction o generalizing r with
  | between a b => exact writes_between (mem_toList_iff.mp h)
  | single a => exact List.mem_singleton.mp h ▸ writes_single a
  | block b => exact List.mem_singleton.mp h ▸ writes_block b
  | closure b =>
    obtain ⟨b', hb, hclosure⟩ := Option.bind_eq_some_iff.mp (Option.mem_toList.mp h)
    exact writes_closure (toOption_eq_some_iff.mp hb) hclosure
  | item t =>
    obtain ⟨i, hi, hr⟩ := Option.bind_eq_some_iff.mp (Option.mem_toList.mp h)
    obtain rfl := Item.eq_of_range? hr
    exact .item (Item.writes_of_ofText (toOption_eq_some_iff.mp hi))
  | text t => exact writes_text (mem_toList_iff.mp h)
  | texts ts =>
    obtain ⟨rs, hrs, hr⟩ := exists_of_mem_getD h
    exact writes_texts hrs hr
  | setText t =>
    obtain ⟨rs, hrs, hr⟩ := exists_of_mem_getD h
    obtain ⟨s, hs, rfl⟩ := map_eq_ok_iff.mp hrs
    exact writes_setText hs hr
  | json v => exact writes_json (mem_toList_iff.mp h)
  | record bs => exact writes_record (mem_toList_iff.mp h)
  | records bs =>
    obtain ⟨rs, hrs, hr⟩ := exists_of_mem_getD h
    exact writes_records hrs hr
  | contents s t => exact writes_contents h
  | contentsSet s t => exact writes_contentsSet h
  | cover family o _ => exact writes_cover h
  | compiled options o _ => exact writes_compiled h
  | set options o ih => exact .set (ih (RangeSet.mem_ranges.mp h))
  | picked keep o ih => exact .picked (ih (List.mem_filter.mp h).1)
  | both o o' ih ih' =>
    rcases List.mem_append.mp h with h | h
    · exact .left (ih h)
    · exact .right (ih' h)

/-- **Ranges are in order wherever they come from.** Whatever operations lead to a range, the two
addresses that they wrote down for its ends belong to one family and do not come in reverse order,
and the range has these two as its ends. -/
theorem ends_inOrder (o : Origin) : (∀ e, o.Writes e → e.InOrder) ∧
    ∀ r ∈ o.ranges, o.Writes r.ends ∧
      r.lower.family = r.upper.family ∧ r.lower.value ≤ r.upper.value := by
  refine ⟨fun e h => h.inOrder, fun r hr => ?_⟩
  have hwrites := writes_ends hr
  have hord := hwrites.inOrder
  exact ⟨hwrites, hord.same_family, hord.lower_le_upper⟩

end Origin

end NetRanges
