import NetRanges.Pattern
import NetRanges.Proofs.Answers
import NetRanges.Proofs.Grammar

/-!
# The answers of patterns

An address compares itself with the address it is asked for, a range looks whether a value lies
between its ends, and a set asks its matcher; each of the three has a rule of its own for addresses
of the other family. They all give the answer of `heldBy` for the ranges that the pattern stands for
(`Pattern.Built.contains_eq`). A text without a comma is one piece, so as a set it has the
range of the item that it writes (`RangeSet.ofText_eq_map`), and it makes no difference whether the
item is asked or the set.
-/

namespace NetRanges

variable {a b : Address} {foreign : Bool}

/-! ## One range -/

theorem heldBy_singleton (r : Range) : heldBy [r] a foreign = r.contains a foreign := by
  unfold heldBy Range.contains
  simp only [Covered, List.mem_singleton, exists_eq_left, eq_comm (a := r.family)]
  by_cases h : a.family = r.family
  · rw [if_pos h, if_pos h, decide_eq_decide, and_iff_right h]
  · rw [if_neg h, if_neg h]

/-- To compare an address is to look into the range of that address alone. -/
theorem Address.agrees_eq_contains : b.agrees a foreign = (Range.single b).contains a foreign := by
  have hmem : a.value ∈ (Range.single b).toExtent ↔ b.value = a.value := by
    rw [Range.toExtent_single, Extent.mem_iff]
    show b.value ≤ a.value ∧ a.value ≤ b.value ↔ b.value = a.value
    omega
  unfold agrees compare? Range.contains
  by_cases h : b.family = a.family
  · have hfam : a.family = (Range.single b).family := h.symm
    rw [if_pos h, if_pos hfam, Bool.eq_iff_iff, decide_eq_true_iff, hmem]
    exact beq_iff_eq.trans Nat.compare_eq_eq
  · rw [if_neg h]
    exact (if_neg fun hfam => h (Eq.symm hfam)).symm

/-! ## Patterns -/

namespace Pattern

/-- The ranges that a pattern stands for. -/
def ranges : Pattern → List Range
  | address a => [.single a]
  | range r => [r]
  | set s => s.ranges

/-- How patterns come about. The matcher of a set is always compiled from the ranges of the set. -/
inductive Built : Pattern → Prop
  | address (a : Address) : Built (.address a)
  | range (r : Range) : Built (.range r)
  | set (rs : List Range) (options : Options) : Built (.set (.ofRanges rs options))

/-- Two patterns give the same answers to all questions. -/
structure Alike (p q : Pattern) : Prop where
  contains_eq : ∀ a foreign, contains p a foreign = contains q a foreign
  containsAny_eq : ∀ as foreign, containsAny p as foreign = containsAny q as foreign

variable {p q : Pattern} {as : List Address}

theorem Built.contains_eq (h : p.Built) :
    contains p a foreign = heldBy p.ranges a foreign := by
  cases h with
  | address b => exact Address.agrees_eq_contains.trans (heldBy_singleton _).symm
  | range r => exact (heldBy_singleton r).symm
  | set rs options =>
    show contains (RangeSet.ofRanges rs options) a foreign = _
    rw [RangeSet.contains_ofRanges]
    exact heldBy_congr foreign fun v => covered_congr_mem fun r => RangeSet.mem_ranges.symm

/-- Only a set answers a batch in a way of its own. -/
theorem Built.containsAny_eq_any (h : p.Built) :
    containsAny p as foreign = as.any fun a => contains p a foreign := by
  cases h with
  | address b => rfl
  | range r => rfl
  | set rs options =>
    exact Compiled.containsAny_ofRanges (RangeSet.ofRanges rs options).ranges options as foreign

theorem Built.alike (hp : p.Built) (hq : q.Built) (h : ∀ r, r ∈ p.ranges ↔ r ∈ q.ranges) :
    p.Alike q := by
  have hcontains (a : Address) (foreign : Bool) : contains p a foreign = contains q a foreign := by
    rw [hp.contains_eq, hq.contains_eq]
    exact heldBy_congr foreign fun v => covered_congr_mem h
  refine ⟨hcontains, fun as foreign => ?_⟩
  rw [hp.containsAny_eq_any, hq.containsAny_eq_any]
  simp only [hcontains]

theorem built_ofItem (i : Item) : (ofItem i).Built := by
  cases i with
  | address a => exact .address a
  | range r => exact .range r

theorem ranges_ofItem (i : Item) : (ofItem i).ranges = [i.toRange] := by
  cases i <;> rfl

end Pattern

/-! ## One item -/

theorem Item.ofText_trim (t : Text) : ofText (Text.trim t) = ofText t := by
  unfold ofText
  rw [Text.trim_trim]

theorem RangeSet.ofText_eq_map {t : Text} (hblank : ¬ Text.Blank t) (hcomma : ',' ∉ t) :
    ofText t = (Item.ofText t).map fun i => ofRanges [i.toRange] := by
  have hne : Text.trim t ≠ [] := fun h => hblank (Text.trim_eq_nil_iff.mp h)
  unfold ofText
  rw [Text.pieces_of_not_mem hcomma hne, Range.ofTexts_cons, Range.ofText, Item.ofText_trim]
  cases Item.ofText t <;> rfl

/-- **An item and its set.** A text without a comma is refused as a set exactly when it is refused
as an item, and with the same error. Otherwise the set and the item give the same answers, for an
address of either family and for batches. Every pattern answers a batch as the disjunction of its
single questions. -/
theorem Pattern.item_alike_set :
    (∀ t : Text, ¬ Text.Blank t → ',' ∉ t →
      (∀ e, RangeSet.ofText t = .error e ↔ Item.ofText t = .error e) ∧
        ((∃ s, RangeSet.ofText t = .ok s) ↔ ∃ i, Item.ofText t = .ok i) ∧
        ∀ s i, RangeSet.ofText t = .ok s → Item.ofText t = .ok i → (set s).Alike (ofItem i)) ∧
      ∀ p : Pattern, p.Built → ∀ as foreign,
        containsAny p as foreign = true ↔ ∃ a ∈ as, contains p a foreign = true := by
  constructor
  · intro t hblank hcomma
    have hset := RangeSet.ofText_eq_map hblank hcomma
    refine ⟨fun e => ?_, ⟨?_, ?_⟩, ?_⟩
    · rw [hset, map_eq_error_iff]
    · rintro ⟨s, hs⟩
      obtain ⟨i, hi, -⟩ := map_eq_ok_iff.mp (hset.symm.trans hs)
      exact ⟨i, hi⟩
    · rintro ⟨i, hi⟩
      exact ⟨_, hset.trans (map_eq_ok_iff.mpr ⟨i, hi, rfl⟩)⟩
    · intro s i hs hi
      obtain ⟨i', hi', rfl⟩ := map_eq_ok_iff.mp (hset.symm.trans hs)
      obtain rfl := Except.ok.inj (hi.symm.trans hi')
      refine (Built.set _ _).alike (built_ofItem i) fun r => ?_
      rw [ranges_ofItem]
      exact RangeSet.mem_ranges
  · intro p hp as foreign
    rw [hp.containsAny_eq_any, List.any_eq_true]

/-- A block, which an address of the other family is asked of. -/
theorem Pattern.item_alike_set_of_block :
    let t : Text := " 10.0.0.1/31".toList
    let i : Item := .range (.spanning .v4 0x0A000000 0x0A000001)
    ¬ Text.Blank t ∧ ',' ∉ t ∧ Item.ofText t = .ok i ∧ ∃ s, RangeSet.ofText t = .ok s ∧
      (set s).Alike (ofItem i) ∧ contains (set s) (.ofNat .v6 1) true = true := by
  intro t i
  have hblank : ¬ Text.Blank t := fun h => absurd (h '0' (by decide)) (by decide)
  have hcomma : ',' ∉ t := by decide
  have hi : Item.ofText t = .ok i := by decide +kernel
  have h := item_alike_set.1 t hblank hcomma
  obtain ⟨s, hs⟩ := h.2.1.mpr ⟨i, hi⟩
  have halike := h.2.2 s i hs hi
  exact ⟨hblank, hcomma, hi, s, hs, halike, halike.contains_eq _ _⟩

end NetRanges
