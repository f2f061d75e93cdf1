import NetRanges.Proofs.Changes
import NetRanges.Proofs.RecordLists
import NetRanges.Session

/-!
# What a session keeps

A step works on one part of a session and leaves the other two as they are (`turn_frame`); it fails
only if a text or the bytes are refused (`step_eq_error_iff`), and then the session stays the same.
What each step keeps is kept by a run (`forall₂_run`). Here are three such properties. All
addresses in a session come from texts, as long as no byte is overwritten (`Drawn`). A matcher
answers for the pool from which it was compiled, whatever has become of that pool
(`Compiles`). And while ranges are neither brought in nor dropped, no step fails and the pool covers
what it did (`Settled`).
-/

namespace NetRanges

variable {given rs ss : List Range} {m : Compiled} {bs : Bytes} {a : Address} {e : Error}

/-- All that `rs` cover is covered by `given`. -/
def Covers (given rs : List Range) : Prop :=
  ∀ family v, Covered rs family v → Covered given family v

namespace Covers

theorem of_subset (h : ∀ r ∈ rs, r ∈ given) : Covers given rs := by
  rintro family v ⟨r, hr, hv⟩
  exact ⟨r, h r hr, hv⟩

theorem append (hrs : Covers given rs) (hss : Covers given ss) : Covers given (rs ++ ss) :=
  fun family v hv => (covered_append.mp hv).elim (hrs family v) (hss family v)

theorem trans (hrs : Covers given rs) (hss : Covers rs ss) : Covers given ss :=
  fun family v hv => hrs family v (hss family v hv)

theorem of_sameCoverage (hrs : Covers given rs) (h : SameCoverage ss rs) : Covers given ss :=
  hrs.trans fun family v => (h family v).mp

end Covers

/-- The matcher was compiled from ranges that cover the same as `rs`. -/
def Compiles (rs : List Range) (m : Compiled) : Prop :=
  ∃ ss options, m = .ofRanges ss options ∧ SameCoverage ss rs

namespace Compiles

theorem ofRanges (rs : List Range) (options : Options) : Compiles rs (.ofRanges rs options) :=
  ⟨rs, options, rfl, .refl rs⟩

theorem sameCoverage_ranges (h : Compiles rs m) : SameCoverage m.ranges rs := by
  obtain ⟨ss, options, rfl, hsame⟩ := h
  exact (SameCoverage.ranges_compiled ss options).trans hsame

theorem recompile (h : Compiles rs m) (options : Options) :
    Compiles rs (.ofRanges m.ranges options) :=
  ⟨m.ranges, options, rfl, h.sameCoverage_ranges⟩

theorem contains_eq (h : Compiles rs m) (a : Address) (foreign : Bool) :
    contains m a foreign = heldBy rs a foreign := by
  obtain ⟨ss, options, rfl, hsame⟩ := h
  rw [Compiled.contains_ofRanges]
  exact heldBy_congr foreign (hsame a.family)

theorem containsAny_eq (h : Compiles rs m) (as : List Address) (foreign : Bool) :
    containsAny m as foreign = as.any fun a => heldBy rs a foreign := by
  have hsingle := h.contains_eq
  obtain ⟨ss, options, rfl, -⟩ := h
  rw [Compiled.containsAny_ofRanges]
  simp only [hsingle]

end Compiles

/-- What is read from the front of some records are the ranges in front. -/
theorem Record.isPrefix_of_decodeAll (hbs : bs <+: Range.records rs) (h : decodeAll bs = .ok ss) :
    ss <+: rs := by
  obtain ⟨rest, hrest⟩ := hbs
  have hall := decodeAll_append h rest
  rw [hrest, decodeAll_records] at hall
  obtain ⟨ts, -, hts⟩ := map_eq_ok_iff.mp hall.symm
  exact ⟨ts, hts⟩

namespace Session

variable {s : Session} {x : Step} {xs : List Step} {options : Options}

/-! ## One step -/

theorem step_eq_error_iff : s.step x = .error e ↔
    (∃ t, x = .add t ∧ Range.ofText t = .error e) ∨
      x = .decode ∧ Record.decodeAll s.bytes = .error e := by
  constructor
  · intro h
    cases x with
    | add t =>
      rcases bind_eq_error_iff.mp h with hread | ⟨r, -, h⟩
      · exact .inl ⟨t, rfl, hread⟩
      · cases h
    | decode =>
      rcases bind_eq_error_iff.mp h with hread | ⟨rs, -, h⟩
      · exact .inr ⟨rfl, hread⟩
      · cases h
    | _ => cases h
  · rintro (⟨t, rfl, hread⟩ | ⟨rfl, hread⟩)
    · exact bind_eq_error_iff.mpr (.inl hread)
    · exact bind_eq_error_iff.mpr (.inl hread)

theorem turn_of_error (h : s.step x = .error e) : s.turn x = (.error e, s) := by
  rw [turn, h]

/-- A text is added to the pool or refused. -/
theorem turn_add (s : Session) (t : Text) :
    (∃ r, Range.ofText t = .ok r ∧
      s.turn (.add t) = (.ok (.range r), { s with pool := s.pool ++ [r] })) ∨
    ∃ e, Range.ofText t = .error e ∧ s.turn (.add t) = (.error e, s) := by
  cases hread : Range.ofText t with
  | ok r =>
    have hstep : s.step (.add t) = .ok (.range r, { s with pool := s.pool ++ [r] }) :=
      bind_eq_ok_iff.mpr ⟨r, hread, rfl⟩
    refine .inl ⟨r, rfl, ?_⟩
    rw [turn, hstep]
  | error e =>
    exact .inr ⟨e, rfl, turn_of_error (step_eq_error_iff.mpr (.inl ⟨t, rfl, hread⟩))⟩

/-- The bytes are read into the pool or refused. -/
theorem turn_decode (s : Session) :
    (∃ rs, Record.decodeAll s.bytes = .ok rs ∧
      s.turn .decode = (.ok (.count rs.length), { s with pool := rs })) ∨
    ∃ e, Record.decodeAll s.bytes = .error e ∧ s.turn .decode = (.error e, s) := by
  cases hread : Record.decodeAll s.bytes with
  | ok rs =>
    have hstep : s.step .decode = .ok (.count rs.length, { s with pool := rs }) :=
      bind_eq_ok_iff.mpr ⟨rs, hread, rfl⟩
    refine .inl ⟨rs, rfl, ?_⟩
    rw [turn, hstep]
  | error e => exact .inr ⟨e, rfl, turn_of_error (step_eq_error_iff.mpr (.inr ⟨rfl, hread⟩))⟩

/-- One of the three parts of a session. -/
inductive Part where
  | pool
  | matcher
  | bytes

/-- The part that a step works on, none for a question. -/
def Step.part? : Step → Option Part
  | add _ | extract _ | sort | merge | collapse | decode | clear => some .pool
  | compile _ | recompile _ => some .matcher
  | encode | patch .. | cut _ => some .bytes
  | ask .. | askAny .. => none

/-- A step changes no other part than the one it works on. -/
theorem turn_frame (s : Session) (x : Step) :
    (x.part? ≠ some .pool → (s.turn x).2.pool = s.pool) ∧
      (x.part? ≠ some .matcher → (s.turn x).2.matcher = s.matcher) ∧
      (x.part? ≠ some .bytes → (s.turn x).2.bytes = s.bytes) := by
  cases x with
  | add t =>
    rcases s.turn_add t with ⟨r, -, hturn⟩ | ⟨e, -, hturn⟩
    · exact hturn ▸ ⟨fun h => absurd rfl h, fun _ => rfl, fun _ => rfl⟩
    · exact hturn ▸ ⟨fun _ => rfl, fun _ => rfl, fun _ => rfl⟩
  | decode =>
    rcases s.turn_decode with ⟨rs, -, hturn⟩ | ⟨e, -, hturn⟩
    · exact hturn ▸ ⟨fun h => absurd rfl h, fun _ => rfl, fun _ => rfl⟩
    · exact hturn ▸ ⟨fun _ => rfl, fun _ => rfl, fun _ => rfl⟩
  | extract | sort | merge | collapse | clear =>
    exact ⟨fun h => absurd rfl h, fun _ => rfl, fun _ => rfl⟩
  | compile | recompile => exact ⟨fun _ => rfl, fun h => absurd rfl h, fun _ => rfl⟩
  | encode | patch | cut => exact ⟨fun _ => rfl, fun _ => rfl, fun h => absurd rfl h⟩
  | ask | askAny => exact ⟨fun _ => rfl, fun _ => rfl, fun _ => rfl⟩

/-! ## Runs -/

/-- What every step keeps and says is kept and said all along a run. -/
theorem forall₂_run {P : Session → Prop} {R : Step → Except Error Reply × Session → Prop}
    (hturn : ∀ s, P s → ∀ x ∈ xs, R x (s.turn x) ∧ P (s.turn x).2) (hs : P s) :
    List.Forall₂ R xs (s.run xs) := by
  induction xs generalizing s with
  | nil => exact .nil
  | cons x xs ih =>
    obtain ⟨hanswer, hnext⟩ := hturn s hs x (List.mem_cons_self ..)
    exact .cons hanswer (ih (fun s hs y hy => hturn s hs y (List.mem_cons_of_mem _ hy)) hnext)

/-! ## Where the addresses come from -/

/-- The ranges that a step brings in from a text. -/
def Step.brought : Step → List Range
  | add t => (Range.ofText t).toOption.toList
  | extract t => (Loose.contentsOf t).toRangeSet.ranges
  | _ => []

/-- No part of the session goes beyond the given ranges; its bytes are those of records, some
perhaps cut off. -/
structure Drawn (given : List Range) (s : Session) : Prop where
  pool : Covers given s.pool
  matcher : ∃ rs, Compiles rs s.matcher ∧ Covers given rs
  bytes : ∃ rs, s.bytes <+: Range.records rs ∧ Covers given rs

theorem drawn_empty : Drawn given {} where
  pool := .of_subset nofun
  matcher := ⟨[], .ofRanges [] {}, .of_subset nofun⟩
  bytes := ⟨[], List.prefix_refl _, .of_subset nofun⟩

theorem Drawn.of_pool (hs : Drawn given s) (hrs : Covers given rs) :
    Drawn given { s with pool := rs } :=
  { hs with pool := hrs }

theorem Drawn.turn (hs : Drawn given s) (hbrought : Covers given x.brought)
    (hpatch : ∀ place byte, x ≠ .patch place byte) : Drawn given (s.turn x).2 := by
  obtain ⟨ms, hcompiles, hms⟩ := hs.matcher
  obtain ⟨ws, hwritten, hws⟩ := hs.bytes
  have hmatcher : Covers given s.matcher.ranges := hms.of_sameCoverage hcompiles.sameCoverage_ranges
  cases x with
  | add t =>
    rcases s.turn_add t with ⟨r, hread, hturn⟩ | ⟨e, -, hturn⟩
    · have hr : Covers given [r] := by
        rwa [Step.brought, hread] at hbrought
      exact hturn ▸ hs.of_pool (hs.pool.append hr)
    · exact hturn ▸ hs
  | extract t => exact hs.of_pool (hs.pool.append hbrought)
  | sort => exact hs.of_pool (hs.pool.of_sameCoverage (.ranges_set s.pool))
  | compile options => exact { hs with matcher := ⟨s.pool, .ofRanges s.pool options, hs.pool⟩ }
  | recompile options => exact { hs with matcher := ⟨ms, hcompiles.recompile options, hms⟩ }
  | merge => exact hs.of_pool hmatcher
  | collapse => exact hs.of_pool (hs.pool.of_sameCoverage (.ranges_blocks s.pool))
  | encode => exact { hs with bytes := ⟨s.pool, List.prefix_refl _, hs.pool⟩ }
  | patch place byte => exact absurd rfl (hpatch place byte)
  | cut length => exact { hs with bytes := ⟨ws, (List.take_prefix ..).trans hwritten, hws⟩ }
  | decode =>
    rcases s.turn_decode with ⟨rs, hread, hturn⟩ | ⟨e, -, hturn⟩
    · have hfront := Record.isPrefix_of_decodeAll hwritten hread
      have hrs : Covers ws rs := .of_subset fun r hr => hfront.subset hr
      exact hturn ▸ hs.of_pool (hws.trans hrs)
    · exact hturn ▸ hs
  | ask a foreign => exact hs
  | askAny as foreign => exact hs
  | clear => exact hs.of_pool (.of_subset nofun)

/-- **No address is made up.** Whatever steps are taken in whatever order, even if records are cut
off anywhere, the session never goes beyond the ranges that the steps read from texts, and it finds
no other address, as long as no byte is overwritten. -/
theorem drawn_run (xs : List Step) (hpatch : ∀ place byte, .patch place byte ∉ xs) :
    List.Forall₂ (fun x turn => Drawn (xs.flatMap Step.brought) turn.2 ∧
      ∀ a, x = .ask a false → turn.1 = .ok (.verdict true) →
        Covered (xs.flatMap Step.brought) a.family a.value) xs (run {} xs) := by
  refine forall₂_run (P := Drawn (xs.flatMap Step.brought)) (fun s hs x hx => ?_) drawn_empty
  have hbrought : Covers (xs.flatMap Step.brought) x.brought :=
    .of_subset fun r hr => List.mem_flatMap.mpr ⟨x, hx, hr⟩
  have hnext := hs.turn hbrought fun place byte heq => hpatch place byte (heq ▸ hx)
  refine ⟨⟨hnext, ?_⟩, hnext⟩
  rintro a rfl hfound
  obtain ⟨rs, hcompiles, hrs⟩ := hs.matcher
  have hcontains : contains s.matcher a false = true :=
    Reply.verdict.inj (Except.ok.inj hfound)
  rw [hcompiles.contains_eq, heldBy_false_iff] at hcontains
  exact hrs _ _ hcontains

/-! ## What the matcher answers for -/

/-- If a step asks the matcher, the reply is the one of the ranges `rs`. -/
def AnswersFor (rs : List Range) : Step → Except Error Reply × Session → Prop
  | .ask a foreign, turn => turn.1 = .ok (.verdict (heldBy rs a foreign))
  | .askAny as foreign, turn => turn.1 = .ok (.verdict (as.any fun a => heldBy rs a foreign))
  | _, _ => True

theorem answersFor_turn (hs : Compiles rs s.matcher) (x : Step) : AnswersFor rs x (s.turn x) := by
  cases x with
  | ask a foreign =>
    show Except.ok (Reply.verdict (contains s.matcher a foreign)) = _
    rw [hs.contains_eq]
  | askAny as foreign =>
    show Except.ok (Reply.verdict (containsAny s.matcher as foreign)) = _
    rw [hs.containsAny_eq]
  | _ => trivial

theorem compiles_turn (hs : Compiles rs s.matcher) (hx : ∀ options, x ≠ .compile options) :
    Compiles rs (s.turn x).2.matcher := by
  by_cases hpart : x.part? = some .matcher
  · cases x with
    | compile options => exact absurd rfl (hx options)
    | recompile options => exact hs.recompile options
    | _ => cases hpart
  · rwa [(s.turn_frame x).2.1 hpart]

/-- **Answers stay.** Whatever is done after the pool has been compiled, to the pool as well, the
answers are those of the pool as it was then, until a pool is compiled again. To compile the ranges
of the matcher again, with any options, changes no answer. -/
theorem answersFor_run (s : Session) (options : Options) (xs : List Step)
    (hcompile : ∀ options, .compile options ∉ xs) :
    List.Forall₂ (AnswersFor s.pool) xs ((s.turn (.compile options)).2.run xs) := by
  refine forall₂_run (P := fun s' => Compiles s.pool s'.matcher) (fun s' hs x hx => ?_)
    (.ofRanges s.pool options)
  exact ⟨answersFor_turn hs x, compiles_turn hs fun options heq => hcompile options (heq ▸ hx)⟩

/-! ## Changes of form -/

/-- A step that neither brings ranges in nor drops any. -/
def Step.Reshapes : Step → Prop
  | add _ | extract _ | patch .. | cut _ | clear => False
  | _ => True

/-- Every part of the session holds ranges that cover the same as `rs`. -/
structure Settled (rs : List Range) (s : Session) : Prop where
  pool : SameCoverage s.pool rs
  matcher : Compiles rs s.matcher
  bytes : ∃ ss, s.bytes = Range.records ss ∧ SameCoverage ss rs

theorem Settled.of_pool (hs : Settled rs s) (hss : SameCoverage ss rs) :
    Settled rs { s with pool := ss } :=
  { hs with pool := hss }

theorem Settled.turn (hs : Settled rs s) (hx : x.Reshapes) :
    ∃ reply next, s.turn x = (.ok reply, next) ∧ Settled rs next := by
  obtain ⟨ws, hbytes, hws⟩ := hs.bytes
  cases x with
  | add | extract | patch | cut | clear => cases hx
  | sort => exact ⟨_, _, rfl, hs.of_pool ((SameCoverage.ranges_set s.pool).trans hs.pool)⟩
  | compile options =>
    exact ⟨_, _, rfl, { hs with matcher := ⟨s.pool, options, rfl, hs.pool⟩ }⟩
  | recompile options => exact ⟨_, _, rfl, { hs with matcher := hs.matcher.recompile options }⟩
  | merge => exact ⟨_, _, rfl, hs.of_pool hs.matcher.sameCoverage_ranges⟩
  | collapse => exact ⟨_, _, rfl, hs.of_pool ((SameCoverage.ranges_blocks s.pool).trans hs.pool)⟩
  | encode => exact ⟨_, _, rfl, { hs with bytes := ⟨s.pool, rfl, hs.pool⟩ }⟩
  | decode =>
    have hread : Record.decodeAll s.bytes = .ok ws := by
      rw [hbytes, Record.decodeAll_records]
    rcases s.turn_decode with ⟨ts, hts, hturn⟩ | ⟨e, he, -⟩
    · obtain rfl : ws = ts := Except.ok.inj (hread.symm.trans hts)
      exact ⟨_, _, hturn, hs.of_pool hws⟩
    · rw [hread] at he
      cases he
  | ask a foreign => exact ⟨_, _, rfl, hs⟩
  | askAny as foreign => exact ⟨_, _, rfl, hs⟩

theorem settled_compile_encode (s : Session) (options : Options) :
    Settled s.pool ((s.turn (.compile options)).2.turn .encode).2 where
  pool := .refl s.pool
  matcher := .ofRanges s.pool options
  bytes := ⟨s.pool, rfl, .refl s.pool⟩

/-- **Nothing is lost.** Once the pool has been compiled and written, steps that neither bring
ranges in nor drop any all succeed, in whatever order; the pool covers the same after each of them,
and every answer is the one of the first pool. -/
theorem settled_run (s : Session) (options : Options) (xs : List Step)
    (hxs : ∀ x ∈ xs, x.Reshapes) :
    List.Forall₂ (fun x turn => (∃ reply, turn.1 = .ok reply) ∧ AnswersFor s.pool x turn ∧
        SameCoverage turn.2.pool s.pool)
      xs (((s.turn (.compile options)).2.turn .encode).2.run xs) := by
  refine forall₂_run (P := Settled s.pool) (fun s' hs x hx => ?_)
    (settled_compile_encode s options)
  have hanswer := answersFor_turn hs.matcher x
  obtain ⟨reply, next, hturn, hnext⟩ := hs.turn (hxs x hx)
  rw [hturn] at hanswer ⊢
  exact ⟨⟨⟨reply, rfl⟩, hanswer, hnext.pool⟩, hnext⟩

end Session

end NetRanges
