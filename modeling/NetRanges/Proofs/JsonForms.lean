import Mathlib.Data.List.Forall2
import NetRanges.Json.Records
import NetRanges.Proofs.Closures
import NetRanges.Proofs.WrittenAddresses

/-!
# The JSON forms of bounded ranges and options

What a JSON value says about one field of a record is `Json.Slot`: in an object the last field of
the name counts, in an array the element at the place, and either may be missing. `Json.Fits` are
the values that have fields at all. A bounded range is described by four such fields
(`Bounded.Describes`), and its reader passes them to the check of bounds
(`Bounded.ofJson_of_describes`), so nothing that the check refuses comes out of JSON. What is
written is an object with all the fields, and reads back.
-/

namespace NetRanges

namespace Json

/-! ## Fields of objects and arrays -/

/-- An object, or an array of at most `n` elements. -/
inductive Fits (n : Nat) : Json → Prop
  | object (fields : List (Text × Json)) : Fits n (.object fields)
  | array {vs : List Json} (h : vs.length ≤ n) : Fits n (.array vs)

/-- What an object has under the name, or an array at place `i`. -/
inductive Slot (name : String) (i : Nat) : Json → Option Json → Prop
  | field {before after : List (Text × Json)} (v : Json) (h : ∀ f ∈ after, f.1 ≠ name.toList) :
      Slot name i (.object (before ++ (name.toList, v) :: after)) (some v)
  | noField {fields : List (Text × Json)} (h : ∀ f ∈ fields, f.1 ≠ name.toList) :
      Slot name i (.object fields) none
  | element {before after : List Json} (v : Json) (h : before.length = i) :
      Slot name i (.array (before ++ v :: after)) (some v)
  | noElement {vs : List Json} (h : vs.length ≤ i) : Slot name i (.array vs) none

variable {name : String} {names : List String} {i : Nat} {v : Json} {o : Option Json}
  {os : List (Option Json)} {fields : List (Text × Json)} {vs : List Json} {e : Refusal}

theorem field?_eq_none_iff :
    (object fields).field? name = none ↔ ∀ f ∈ fields, f.1 ≠ name.toList := by
  show (fields.reverse.find? fun f => f.1 == name.toList).map Prod.snd = none ↔ _
  simp only [Option.map_eq_none_iff, List.find?_eq_none, List.mem_reverse, beq_iff_eq, ne_eq]

/-- Of several fields of one name the last one counts. -/
theorem field?_eq_some_iff : (object fields).field? name = some v ↔
    ∃ before after, fields = before ++ (name.toList, v) :: after ∧
      ∀ f ∈ after, f.1 ≠ name.toList := by
  show (fields.reverse.find? fun f => f.1 == name.toList).map Prod.snd = some v ↔ _
  rw [Option.map_eq_some_iff]
  constructor
  · rintro ⟨⟨key, w⟩, hfind, rfl⟩
    obtain ⟨hname, after, before, hsplit, hafter⟩ := List.find?_eq_some_iff_append.mp hfind
    obtain rfl := eq_of_beq hname
    refine ⟨before.reverse, after.reverse, ?_, fun f hf => ?_⟩
    · rw [← List.reverse_reverse fields, hsplit]
      simp
    · simpa using hafter f (List.mem_reverse.mp hf)
  · rintro ⟨before, after, rfl, hafter⟩
    refine ⟨(name.toList, v), List.find?_eq_some_iff_append.mpr ⟨beq_self_eq_true _, after.reverse,
      before.reverse, by simp, fun f hf => ?_⟩, rfl⟩
    simpa using hafter f (List.mem_reverse.mp hf)

theorem slot_object_iff : Slot name i (.object fields) o ↔ (object fields).field? name = o := by
  cases o with
  | none =>
    rw [field?_eq_none_iff]
    constructor
    · intro h
      cases h with
      | noField h => exact h
    · exact .noField
  | some v =>
    rw [field?_eq_some_iff]
    constructor
    · intro h
      cases h with
      | field v h => exact ⟨_, _, rfl, h⟩
    · rintro ⟨before, after, rfl, h⟩
      exact .field v h

theorem slot_array_iff : Slot name i (.array vs) o ↔ vs[i]? = o := by
  constructor
  · intro h
    cases h with
    | element v h =>
      rw [List.getElem?_append_right (Nat.le_of_eq h), h, Nat.sub_self]
      rfl
    | noElement h => exact List.getElem?_eq_none h
  · rintro rfl
    rcases Nat.lt_or_ge i vs.length with h | h
    · have hvs : vs.take i ++ vs[i] :: vs.drop (i + 1) = vs := by
        rw [← List.drop_eq_getElem_cons h, List.take_append_drop]
      have helement : Slot name i (.array (vs.take i ++ vs[i] :: vs.drop (i + 1))) (some vs[i]) :=
        .element _ (List.length_take_of_le (Nat.le_of_lt h))
      rwa [hvs, ← List.getElem?_eq_getElem h] at helement
    · rw [List.getElem?_eq_none h]
      exact .noElement h

theorem forall₂_eq_iff_map_eq {α β : Type} {f : α → β} {as : List α} {bs : List β} :
    List.Forall₂ (fun a b => f a = b) as bs ↔ as.map f = bs := by
  rw [← List.forall₂_eq_eq_eq, List.forall₂_map_left_iff]

/-- An array fills the first places. -/
theorem map_getElem?_zipIdx (hlen : vs.length ≤ names.length) :
    names.zipIdx.map (fun n => vs[n.2]?) =
      vs.map some ++ List.replicate (names.length - vs.length) none := by
  refine List.ext_getElem ?_ fun i hi hi' => ?_
  · simp only [List.length_map, List.length_zipIdx, List.length_append, List.length_replicate]
    omega
  · rw [List.getElem_map, List.getElem_zipIdx, List.getElem_append]
    split
    · rename_i h
      rw [List.length_map] at h
      rw [List.getElem_map, Nat.zero_add, List.getElem?_eq_getElem h]
    · rename_i h
      rw [List.length_map, Nat.not_lt] at h
      rw [List.getElem_replicate, Nat.zero_add, List.getElem?_eq_none h]

/-- The places of a record are filled in their order. -/
theorem slots_eq_ok_iff : v.slots names = .ok os ↔
    v.Fits names.length ∧ List.Forall₂ (fun n o => v.Slot n.1 n.2 o) names.zipIdx os := by
  cases v with
  | object fields =>
    have hnames : names.zipIdx.map (fun n => (object fields).field? n.1) =
        names.map fun name => (object fields).field? name := by
      apply List.ext_getElem?
      intro i
      rw [List.getElem?_map, List.getElem?_map, List.getElem?_zipIdx, Option.map_map]
      rfl
    simp only [slot_object_iff, slots, Except.ok.injEq, forall₂_eq_iff_map_eq, hnames]
    exact (and_iff_right (Fits.object fields)).symm
  | array vs =>
    simp only [slot_array_iff, slots, forall₂_eq_iff_map_eq]
    by_cases hlen : vs.length ≤ names.length
    · rw [if_pos hlen, Except.ok.injEq, map_getElem?_zipIdx hlen,
        and_iff_right (Fits.array hlen)]
    · rw [if_neg hlen]
      refine iff_of_false nofun ?_
      rintro ⟨hfits, -⟩
      cases hfits with
      | array h => exact hlen h
  | _ => exact iff_of_false nofun fun h => nomatch h.1

theorem slots_eq_error (h : v.slots names = .error e) : e = .form := by
  cases v with
  | object fields => cases h
  | array vs =>
    simp only [slots] at h
    split at h
    · cases h
    · cases h
      rfl
  | _ => cases h; rfl

/-- What a field says about a flag: nothing is off. -/
inductive FlagIs : Option Json → Bool → Prop
  | missing : FlagIs none false
  | bool (b : Bool) : FlagIs (some (.bool b)) b

theorem flag_eq_ok_iff {b : Bool} : flag false o = .ok b ↔ FlagIs o b := by
  constructor
  · intro h
    unfold flag at h
    split at h
    · cases h
      exact .missing
    · cases h
      exact .bool b
    · cases h
  · rintro (_ | _)
    · rfl
    · rfl

theorem flag_eq_error {b : Bool} (h : flag b o = .error e) : e = .form := by
  unfold flag at h
  split at h
  · cases h
  · cases h
  · cases h
    rfl

theorem checked_eq_ok_iff {α : Type} {x : Except Error α} {a : α} :
    checked x = .ok a ↔ x = .ok a := by
  cases x with
  | ok b => simp [checked]
  | error e => simp [checked]

theorem checked_eq_error_iff {α : Type} {x : Except Error α} :
    checked x = .error e ↔ ∃ e', x = .error e' ∧ e = .content e' := by
  cases x with
  | ok b => simp [checked]
  | error e' => simp [checked, eq_comm]

end Json

namespace Bounded

open Json (Refusal)

variable {b c : Bounded} {a : Option Address} {o : Option Json} {v : Json} {e : Refusal}

/-! ## Bounded ranges -/

/-- There is a bound, and two bounds belong to one family. -/
structure Proper (b : Bounded) : Prop where
  bounded : b.lower ≠ none ∨ b.upper ≠ none
  same_family : ∀ l u, b.lower = some l → b.upper = some u → l.family = u.family

theorem check_eq_ok_iff : b.check = .ok c ↔ b.Proper ∧ c = b := by
  constructor
  · intro h
    refine ⟨⟨?_, fun l u hl hu => ?_⟩, eq_of_check h⟩
    · by_contra hnone
      push Not at hnone
      simp only [check, hnone] at h
      cases h
    · by_contra hne
      simp only [check, hl, hu, if_neg hne] at h
      cases h
  · rintro ⟨⟨hbounded, hfam⟩, rfl⟩
    unfold check
    split
    · rename_i hl hu
      exact absurd (hbounded.resolve_left (not_not_intro hl)) (not_not_intro hu)
    · rename_i l u hl hu
      exact if_pos (hfam l u hl hu)
    · rfl

/-- What a field says about a bound: null and nothing stand for no bound, a text for the address
that it writes. -/
inductive BoundIs : Option Json → Option Address → Prop
  | missing : BoundIs none none
  | null : BoundIs (some .null) none
  | address {t : Text} {a : Address} (h : Address.ofText? t = some a) :
      BoundIs (some (.string t)) (some a)

/-- The value has the form of a bounded range, with these bounds and flags. -/
structure Describes (v : Json) (b : Bounded) : Prop where
  fits : v.Fits 4
  lower : ∃ o, v.Slot "lower" 0 o ∧ BoundIs o b.lower
  upper : ∃ o, v.Slot "upper" 1 o ∧ BoundIs o b.upper
  lowerOpen : ∃ o, v.Slot "lowerOpen" 2 o ∧ Json.FlagIs o b.lowerOpen
  upperOpen : ∃ o, v.Slot "upperOpen" 3 o ∧ Json.FlagIs o b.upperOpen

theorem boundOfJson_eq_ok_iff : boundOfJson o = .ok a ↔ BoundIs o a := by
  constructor
  · intro h
    unfold boundOfJson at h
    split at h
    · cases h
      exact .missing
    · cases h
      exact .null
    · split at h
      · rename_i ha
        cases h
        exact .address ha
      · cases h
    · cases h
  · rintro (_ | _ | ⟨h⟩)
    · rfl
    · rfl
    · simp only [boundOfJson, h]

theorem boundOfJson_eq_error (h : boundOfJson o = .error e) : e = .form := by
  unfold boundOfJson at h
  split at h
  · cases h
  · cases h
  · split at h
    · cases h
    · cases h
      rfl
  · cases h
    rfl

theorem ofSlots_eq_ok_iff {lower upper lowerOpen upperOpen : Option Json} :
    ofSlots [lower, upper, lowerOpen, upperOpen] = .ok b ↔
      BoundIs lower b.lower ∧ BoundIs upper b.upper ∧ Json.FlagIs lowerOpen b.lowerOpen ∧
        Json.FlagIs upperOpen b.upperOpen := by
  simp only [ofSlots, bind, bind_eq_ok_iff, boundOfJson_eq_ok_iff, Json.flag_eq_ok_iff]
  constructor
  · rintro ⟨l, hl, u, hu, lo, hlo, uo, huo, h⟩
    cases h
    exact ⟨hl, hu, hlo, huo⟩
  · rintro ⟨hl, hu, hlo, huo⟩
    exact ⟨_, hl, _, hu, _, hlo, _, huo, rfl⟩

theorem ofSlots_eq_error {os : List (Option Json)} (h : ofSlots os = .error e) : e = .form := by
  unfold ofSlots at h
  split at h
  · simp only [bind, bind_eq_error_iff] at h
    rcases h with h | ⟨_, _, h | ⟨_, _, h | ⟨_, _, h | ⟨_, _, h⟩⟩⟩⟩
    · exact boundOfJson_eq_error h
    · exact boundOfJson_eq_error h
    · exact Json.flag_eq_error h
    · exact Json.flag_eq_error h
    · cases h
  · cases h
    rfl

/-- The values that describe a bounded range are those that are read before the check. -/
theorem slots_bind_ofSlots_eq_ok_iff :
    (v.slots fieldNames).bind ofSlots = .ok b ↔ Describes v b := by
  simp only [bind_eq_ok_iff, Json.slots_eq_ok_iff]
  constructor
  · rintro ⟨os, ⟨hfits, hslots⟩, h⟩
    obtain _ | ⟨hl, _ | ⟨hu, _ | ⟨hlo, _ | ⟨huo, _ | _⟩⟩⟩⟩ := hslots
    obtain ⟨hl', hu', hlo', huo'⟩ := ofSlots_eq_ok_iff.mp h
    exact ⟨hfits, ⟨_, hl, hl'⟩, ⟨_, hu, hu'⟩, ⟨_, hlo, hlo'⟩, ⟨_, huo, huo'⟩⟩
  · rintro ⟨hfits, ⟨_, hl, hl'⟩, ⟨_, hu, hu'⟩, ⟨_, hlo, hlo'⟩, ⟨_, huo, huo'⟩⟩
    exact ⟨_, ⟨hfits, .cons hl (.cons hu (.cons hlo (.cons huo .nil)))⟩,
      ofSlots_eq_ok_iff.mpr ⟨hl', hu', hlo', huo'⟩⟩

theorem slots_bind_ofSlots_eq_error (h : (v.slots fieldNames).bind ofSlots = .error e) :
    e = .form := by
  rcases bind_eq_error_iff.mp h with h | ⟨os, -, h⟩
  · exact Json.slots_eq_error h
  · exact ofSlots_eq_error h

theorem ofJson_eq_bind :
    ofJson v = ((v.slots fieldNames).bind ofSlots).bind fun b => Json.checked b.check := by
  show (v.slots fieldNames).bind (fun os => (ofSlots os).bind fun b => Json.checked b.check) = _
  cases v.slots fieldNames with
  | error e => rfl
  | ok os => rfl

/-- What the reader says about a value that describes a bounded range is what the check says. -/
theorem ofJson_of_describes (h : Describes v b) : ofJson v = Json.checked b.check := by
  rw [ofJson_eq_bind, slots_bind_ofSlots_eq_ok_iff.mpr h]
  rfl

theorem ofJson_of_not_describes (h : ¬∃ b, Describes v b) : ofJson v = .error .form := by
  rw [ofJson_eq_bind]
  cases hslots : (v.slots fieldNames).bind ofSlots with
  | error e =>
    rw [slots_bind_ofSlots_eq_error hslots]
    rfl
  | ok b => exact absurd ⟨b, slots_bind_ofSlots_eq_ok_iff.mp hslots⟩ h

theorem proper_of_ofJson (h : ofJson v = .ok b) : b.Proper := by
  rw [ofJson_eq_bind] at h
  obtain ⟨c, -, hcheck⟩ := bind_eq_ok_iff.mp h
  obtain ⟨hproper, rfl⟩ := check_eq_ok_iff.mp (Json.checked_eq_ok_iff.mp hcheck)
  exact hproper

theorem boundOfJson_boundJson (a : Option Address) : boundOfJson (some (boundJson a)) = .ok a := by
  cases a with
  | none => rfl
  | some a => exact boundOfJson_eq_ok_iff.mpr (.address (Address.ofText?_text a))

theorem describes_toJson (b : Bounded) : Describes b.toJson b := by
  refine slots_bind_ofSlots_eq_ok_iff.mp (ofSlots_eq_ok_iff.mpr ?_)
  exact ⟨boundOfJson_eq_ok_iff.mp (boundOfJson_boundJson b.lower),
    boundOfJson_eq_ok_iff.mp (boundOfJson_boundJson b.upper), .bool _, .bool _⟩

end Bounded

/-! ## Options -/

theorem Strategy.ofName?_name (s : Strategy) : ofName? s.name.toList = some s := by
  cases s with
  | auto => rfl
  | sortedIntervals => rfl
  | prefixTrie => rfl

theorem Strategy.ofJson_name (s : Strategy) : ofJson (.str s.name) = .ok s := by
  show ofJson.named s.name.toList = .ok s
  simp only [ofJson.named, ofName?_name]

theorem Options.thresholdOfJson_nat (n : UInt64) : thresholdOfJson (.nat n.toNat) = .ok n := by
  have hrange : (0 : Int) ≤ n.toNat ∧ (n.toNat : Int) < UInt64.size :=
    ⟨Int.natCast_nonneg _, Int.ofNat_lt.mpr n.toNat_lt⟩
  rw [Json.nat, thresholdOfJson, if_pos hrange, Int.toNat_natCast, UInt64.ofNat_toNat]

theorem Options.slots_toJson (o : Options) : o.toJson.slots fieldNames =
    .ok [some (.str o.strategy.name), some (.nat o.trieThreshold.toNat)] :=
  rfl

theorem Options.ofSlots_eq_ok {v w : Json} {s : Strategy} {n : UInt64}
    (hv : Strategy.ofJson v = .ok s) (hw : thresholdOfJson w = .ok n) :
    ofSlots [some v, some w] = .ok ⟨s, n⟩ := by
  simp only [ofSlots, Option.elim_some, hv, hw]
  rfl

theorem Options.ofJson_toJson (o : Options) : ofJson o.toJson = .ok o := by
  rw [ofJson, slots_toJson]
  exact ofSlots_eq_ok (Strategy.ofJson_name _) (thresholdOfJson_nat _)

/-- **JSON forms.** Accepted bounded ranges and options read back from what they are written as.
What is read as a bounded range has a bound and bounds of one family, whatever the value: a value
that describes bounds and flags is read as the check decides, with the reason of the check if it
refuses them, and any other value is refused for its form. -/
theorem Json.records_read_back_and_are_checked :
    (∀ b c : Bounded, b.check = .ok c → Bounded.ofJson c.toJson = .ok c) ∧
    (∀ o : Options, Options.ofJson o.toJson = .ok o) ∧
    (∀ (v : Json) (b : Bounded), Bounded.ofJson v = .ok b → b.Proper) ∧
    (∀ (v : Json) (b : Bounded), Bounded.Describes v b →
      (∀ c, Bounded.ofJson v = .ok c ↔ b.check = .ok c) ∧
      ∀ e, Bounded.ofJson v = .error (.content e) ↔ b.check = .error e) ∧
    ∀ v : Json, (¬∃ b, Bounded.Describes v b) → Bounded.ofJson v = .error .form := by
  refine ⟨fun b c hcheck => ?_, Options.ofJson_toJson, fun v b => Bounded.proper_of_ofJson,
    fun v b hdescribes => ?_, fun v => Bounded.ofJson_of_not_describes⟩
  · obtain ⟨hproper, rfl⟩ := Bounded.check_eq_ok_iff.mp hcheck
    rw [Bounded.ofJson_of_describes (Bounded.describes_toJson c), hcheck]
    rfl
  · rw [Bounded.ofJson_of_describes hdescribes]
    refine ⟨fun c => Json.checked_eq_ok_iff, fun e => Json.checked_eq_error_iff.trans ?_⟩
    constructor
    · rintro ⟨e', hcheck, h⟩
      cases h
      exact hcheck
    · exact fun hcheck => ⟨e, hcheck, rfl⟩

/-- Bounds in reverse order, an array with an upper bound alone, one with bounds of two families,
and one with a flag in the place of a bound. -/
theorem Json.records_read_back_and_are_checked_of_ten_two :
    Bounded.ofJson (Bounded.toJson ⟨some (.ofNat .v4 10), some (.ofNat .v4 2), true, false⟩) =
      .ok ⟨some (.ofNat .v4 10), some (.ofNat .v4 2), true, false⟩ ∧
    Bounded.ofJson (.array [.null, .string (Address.ofNat .v6 2).text]) =
      .ok ⟨none, some (.ofNat .v6 2), false, false⟩ ∧
    Bounded.ofJson (.array [.string (Address.ofNat .v4 10).text,
        .string (Address.ofNat .v6 2).text]) =
      .error (.content (.familyMismatch (.ofNat .v4 10) (.ofNat .v6 2))) ∧
    Bounded.ofJson (.array [.bool true]) = .error .form := by
  obtain ⟨hback, -, -, hreads, hrefuses⟩ := Json.records_read_back_and_are_checked
  have hreversed : Bounded.check ⟨some (.ofNat .v4 10), some (.ofNat .v4 2), true, false⟩ =
      .ok ⟨some (.ofNat .v4 10), some (.ofNat .v4 2), true, false⟩ :=
    rfl
  have hhalf : Bounded.Describes (.array [.null, .string (Address.ofNat .v6 2).text])
      ⟨none, some (.ofNat .v6 2), false, false⟩ :=
    Bounded.slots_bind_ofSlots_eq_ok_iff.mp (Bounded.ofSlots_eq_ok_iff.mpr
      ⟨.null, .address (Address.ofText?_text _), .missing, .missing⟩)
  have hmixed : Bounded.Describes (.array [.string (Address.ofNat .v4 10).text,
      .string (Address.ofNat .v6 2).text])
      ⟨some (.ofNat .v4 10), some (.ofNat .v6 2), false, false⟩ :=
    Bounded.slots_bind_ofSlots_eq_ok_iff.mp (Bounded.ofSlots_eq_ok_iff.mpr
      ⟨.address (Address.ofText?_text _), .address (Address.ofText?_text _), .missing, .missing⟩)
  have hflag : ¬∃ b, Bounded.Describes (.array [.bool true]) b := by
    rintro ⟨b, -, ⟨o, hslot, hbound⟩, -⟩
    cases Json.slot_array_iff.mp hslot
    cases hbound
  exact ⟨hback _ _ hreversed, ((hreads _ _ hhalf).1 _).mpr rfl,
    ((hreads _ _ hmixed).2 _).mpr rfl, hrefuses _ hflag⟩

end NetRanges
