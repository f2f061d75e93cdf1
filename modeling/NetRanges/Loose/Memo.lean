import NetRanges.Loose.Token

/-!
# Tokens found out once

While tokens are read one after the other, a memo keeps what they mean, so that a token that comes
again is not classified again. From a number of tokens on, the work is shared between two tasks,
each with a memo of its own; a token that comes in both halves is classified in both. None of this
makes a difference to the meanings (`meanings_eq_map`, `meaningsShared_eq_map`): a memo holds
nothing but what `classify` says (`Memo.Sound.consult`).
-/

namespace NetRanges.Loose

/-- Tokens with what they mean. -/
abbrev Memo := List (Text × Option Item)

namespace Memo

/-- What a token means: looked up, or else classified and kept. -/
def consult (m : Memo) (t : Text) : Option Item × Memo :=
  match m.lookup t with
  | some found => (found, m)
  | none =>
    let found := classify t
    (found, (t, found) :: m)

/-- What tokens mean, in their order, each one asked of what was kept before it. -/
def consultAll (m : Memo) : List Text → List (Option Item) × Memo
  | [] => ([], m)
  | t :: ts =>
    let (found, m') := m.consult t
    let (rest, m'') := consultAll m' ts
    (found :: rest, m'')

/-- A memo keeps what tokens mean, and no token twice. -/
structure Sound (m : Memo) : Prop where
  eq_classify : ∀ entry ∈ m, entry.2 = classify entry.1
  nodup_tokens : (m.map Prod.fst).Nodup

variable {m : Memo}

theorem sound_nil : Sound [] :=
  ⟨nofun, List.nodup_nil⟩

/-- A sound memo tells what the token means and stays sound. -/
theorem Sound.consult (hm : m.Sound) (t : Text) :
    (m.consult t).1 = classify t ∧ (m.consult t).2.Sound := by
  unfold Memo.consult
  cases hlookup : m.lookup t with
  | some found =>
    obtain ⟨front, back, rfl, -⟩ := List.lookup_eq_some_iff.mp hlookup
    exact ⟨hm.eq_classify (t, found) List.mem_append_cons_self, hm⟩
  | none =>
    have hnew : t ∉ m.map Prod.fst := by
      intro hmem
      obtain ⟨entry, hentry, rfl⟩ := List.mem_map.mp hmem
      simpa using List.lookup_eq_none_iff.mp hlookup entry hentry
    refine ⟨rfl, List.forall_mem_cons.mpr ⟨rfl, hm.eq_classify⟩, ?_⟩
    exact List.nodup_cons.mpr ⟨hnew, hm.nodup_tokens⟩

/-- Whatever is kept already, a sound memo tells what the tokens of a list mean. -/
theorem Sound.consultAll (hm : m.Sound) (ts : List Text) :
    (m.consultAll ts).1 = ts.map classify ∧ (m.consultAll ts).2.Sound := by
  induction ts generalizing m with
  | nil => exact ⟨rfl, hm⟩
  | cons t ts ih =>
    obtain ⟨hfound, hsound⟩ := hm.consult t
    obtain ⟨hrest, hsound'⟩ := ih hsound
    exact ⟨List.cons_eq_cons.mpr ⟨hfound, hrest⟩, hsound'⟩

end Memo

/-- What tokens mean, in their order, classified with a new memo. -/
def meanings (ts : List Text) : List (Option Item) :=
  (Memo.consultAll [] ts).1

/-- What tokens mean, the front half of them found out in a task of its own. -/
def meaningsShared (ts : List Text) : List (Option Item) :=
  let half := ts.length / 2
  let front := Task.spawn fun _ => meanings (ts.take half)
  let back := meanings (ts.drop half)
  front.get ++ back

theorem meanings_eq_map (ts : List Text) : meanings ts = ts.map classify :=
  (Memo.sound_nil.consultAll ts).1

theorem meaningsShared_eq_map (ts : List Text) : meaningsShared ts = ts.map classify := by
  simp only [meaningsShared, Task.spawn, meanings_eq_map]
  rw [← List.map_append, List.take_append_drop]

end NetRanges.Loose
