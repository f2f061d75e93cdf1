import NetRanges.Proofs.Grammar
import NetRanges.Record.Reader

/-!
# Readers and the bytes after their part

A reader takes its part from the front of the bytes. It is steady when bytes added at the end make
no difference to it: what it has read stays read and the new bytes are left over, and a fault it
has found stays found. The one exception is a part that ends early, which further bytes may
complete. Steadiness is kept when one reader runs after another (`Steady.bind`), so the reader of
records has it because the readers of single words have it. Each reader is also given in the other
direction, by the bytes that it takes for a value (`address_eq_ok_iff`, `family_eq_ok_iff`).
-/

namespace NetRanges

/-! ## Words -/

namespace Bytes

theorem length_word (n : Nat) : (word n).length = 4 :=
  length_ofNat 4 n

theorem signed_word {n : Nat} (h : n < 0x80000000) : (word n).signed = n := by
  have hvalue : (word n).toNat = n :=
    toNat_ofNat (Nat.lt_trans h (by decide))
  unfold signed
  rw [hvalue, if_pos h]

theorem ofNat_toNat_of_length {bs : Bytes} {n : Nat} (h : bs.length = n) :
    ofNat n bs.toNat = bs := by
  rw [← h, ofNat_toNat]

/-- A word whose highest bit is not set is the word of its value. -/
theorem eq_word_of_signed {w : Bytes} {n : Nat} (hlen : w.length = 4) (h : w.signed = n) :
    w = word n := by
  have hlt : w.toNat < 0x100000000 := by
    have hpow : Nat.pow 256 4 = 0x100000000 := by decide
    rw [← hpow, ← hlen]
    exact toNat_lt w
  have hvalue : w.toNat = n := by
    unfold signed at h
    split at h <;> omega
  have hself := ofNat_toNat_of_length hlen
  rwa [hvalue, eq_comm] at hself

end Bytes

theorem Family.bytes_lt (f : Family) : f.bytes < 0x80000000 := by
  cases f <;> decide

theorem Family.ofTag?_eq_some_iff {tag : Int} {f : Family} :
    ofTag? tag = some f ↔ tag = f.bytes := by
  unfold ofTag?
  constructor
  · intro h
    exact beq_iff_eq.mp (List.find?_some (p := fun g : Family => tag == g.bytes) h)
  · rintro rfl
    cases f <;> rfl

namespace Record

variable {α β : Type} {f : Family} {a : Address} {x : α} {bs rest : Bytes} {e : Error}

/-! ## Steady readers -/

/-- The bytes end before the next part does. -/
def EndsEarly (e : Error) : Prop :=
  ∃ needed available, available < needed ∧ e = .truncated needed available

/-- A word is no tag, or not the length that its place asks for. -/
inductive Flawed : Error → Prop
  | unknownTag (tag : Int) : Flawed (.unknownTag tag)
  | wrongLength (expected : Nat) (found : Int) : Flawed (.wrongLength expected found)

/-- The bytes end early, or they have a flaw that is found whatever follows them. -/
def Fault (p : Bytes → Except Error α) (bs : Bytes) (e : Error) : Prop :=
  EndsEarly e ∨ Flawed e ∧ ∀ more, p (bs ++ more) = .error e

namespace Fault

/-- One reader passes on the flaw that another one finds. -/
theorem imp {p : Bytes → Except Error α} {q : Bytes → Except Error β} {cs : Bytes}
    (h : Fault p bs e)
    (hq : ∀ more, p (bs ++ more) = .error e → q (cs ++ more) = .error e) : Fault q cs e := by
  rcases h with hearly | ⟨hflawed, hmore⟩
  · exact Or.inl hearly
  · exact Or.inr ⟨hflawed, fun more => hq more (hmore more)⟩

/-- Neither bytes left over nor addresses of two families are a fault of a reader. -/
theorem ne_trailingBytes_and_familyMismatch {p : Bytes → Except Error α} (h : Fault p bs e) :
    (∀ k, e ≠ .trailingBytes k) ∧ ∀ a b, e ≠ .familyMismatch a b := by
  rcases h with ⟨_, _, -, rfl⟩ | ⟨hflawed, -⟩
  · exact ⟨nofun, nofun⟩
  · cases hflawed with
    | unknownTag => exact ⟨nofun, nofun⟩
    | wrongLength => exact ⟨nofun, nofun⟩

end Fault

/-- Bytes added at the end are left over, and mend no fault but an early end. -/
structure Steady (p : Bytes → Except Error (α × Bytes)) : Prop where
  ok_append : ∀ {bs rest x}, p bs = .ok (x, rest) → ∀ more, p (bs ++ more) = .ok (x, rest ++ more)
  fault : ∀ {bs e}, p bs = .error e → Fault p bs e

namespace Steady

variable {p : Bytes → Except Error (α × Bytes)}

theorem ok (x : α) : Steady fun bs => .ok (x, bs) where
  ok_append h more := by
    cases h
    rfl
  fault := nofun

theorem error (h : Flawed e) : Steady fun _ => (.error e : Except Error (α × Bytes)) where
  ok_append := nofun
  fault he := by
    cases he
    exact Or.inr ⟨h, fun _ => rfl⟩

/-- The second reader only has to be steady after values that the first one can give. -/
theorem bind {q : α × Bytes → Except Error (β × Bytes)} (hp : Steady p)
    (hq : ∀ bs x rest, p bs = .ok (x, rest) → Steady fun rest => q (x, rest)) :
    Steady fun bs => (p bs).bind q where
  ok_append {bs rest y} h more := by
    obtain ⟨⟨x, rest'⟩, hx, hy⟩ := bind_eq_ok_iff.mp h
    rw [hp.ok_append hx more]
    exact (hq _ _ _ hx).ok_append hy more
  fault {bs e} h := by
    cases hx : p bs with
    | error e' =>
      rw [hx] at h
      cases h
      refine (hp.fault hx).imp fun more hmore => ?_
      rw [hmore]
      rfl
    | ok z =>
      rw [hx] at h
      refine ((hq _ _ _ hx).fault h).imp fun more hmore => ?_
      rw [hp.ok_append hx]
      exact hmore

/-- A reader that needs some of the last bytes ends early without them. -/
theorem endsEarly (hp : Steady p) {more : Bytes} (h : p (bs ++ more) = .ok (x, rest))
    (hneeds : rest.length < more.length) : ∃ e, p bs = .error e ∧ EndsEarly e := by
  cases hread : p bs with
  | ok z =>
    obtain ⟨y, left⟩ := z
    have hall := hp.ok_append hread more
    rw [h] at hall
    obtain ⟨-, rfl⟩ := Prod.mk.inj (Except.ok.inj hall)
    rw [List.length_append] at hneeds
    omega
  | error e =>
    rcases hp.fault hread with hearly | ⟨-, hmore⟩
    · exact ⟨e, rfl, hearly⟩
    · rw [hmore] at h
      cases h

end Steady

/-! ## The readers of single parts -/

theorem steady_take (n : Nat) : Steady (take n) where
  ok_append h more := by
    obtain ⟨rfl, hlen⟩ := take_eq_ok h
    rw [List.append_assoc]
    exact take_append hlen _
  fault {bs e} h := by
    simp only [take] at h
    split at h
    · rename_i hshort
      cases h
      exact Or.inl ⟨n, _, hshort, rfl⟩
    · cases h

theorem steady_word : Steady word :=
  (steady_take 4).bind fun _ w _ _ => .ok w.signed

theorem word_append {w : Bytes} (hlen : w.length = 4) (rest : Bytes) :
    word (w ++ rest) = .ok (w.signed, rest) := by
  unfold word
  rw [take_append hlen]
  rfl

/-- The word of a family's width reads as that width. -/
theorem word_bytes_append (f : Family) (rest : Bytes) :
    word (.word f.bytes ++ rest) = .ok (f.bytes, rest) := by
  have h := word_append (Bytes.length_word f.bytes) rest
  rwa [Bytes.signed_word f.bytes_lt] at h

theorem steady_address (f : Family) : Steady (address f) := by
  refine steady_word.bind fun _ length _ _ => ?_
  by_cases h : length = f.bytes
  · simp only [h, if_true]
    exact (steady_take f.bytes).bind fun _ body _ _ => .ok (Address.ofNat f body.toNat)
  · simp only [h, if_false]
    exact .error (.wrongLength ..)

theorem address_append {body : Bytes} (hlen : body.length = f.bytes) (rest : Bytes) :
    address f (.word f.bytes ++ body ++ rest) = .ok (.ofNat f body.toNat, rest) := by
  have htake := take_append hlen rest
  unfold address
  rw [List.append_assoc, word_bytes_append]
  simp only [bind, Except.bind, if_true, htake]

/-- An address is read from its length and as many bytes. -/
theorem address_eq_ok_iff : address f bs = .ok (a, rest) ↔
    ∃ body : Bytes, body.length = f.bytes ∧ a = .ofNat f body.toNat ∧
      bs = .word f.bytes ++ body ++ rest := by
  constructor
  · intro h
    obtain ⟨w, body, hlen, hsigned, hbody, ha, hbs⟩ := address_eq_ok h
    rw [Bytes.eq_word_of_signed hlen hsigned] at hbs
    exact ⟨body, hbody, ha, hbs⟩
  · rintro ⟨body, hbody, rfl, rfl⟩
    exact address_append hbody rest

theorem steady_family : Steady family := by
  refine steady_word.bind fun _ tag _ _ => ?_
  cases h : Family.ofTag? tag with
  | some f =>
    simp only [h]
    exact .ok f
  | none =>
    simp only [h]
    exact .error (.unknownTag tag)

/-- A family is read from the word of its width. -/
theorem family_eq_ok_iff : family bs = .ok (f, rest) ↔ bs = .word f.bytes ++ rest := by
  constructor
  · intro h
    obtain ⟨w, hlen, htag, rfl⟩ := family_eq_ok h
    rw [Bytes.eq_word_of_signed hlen (Family.ofTag?_eq_some_iff.mp htag)]
  · rintro rfl
    unfold family
    rw [word_bytes_append]
    simp only [bind, Except.bind, Family.ofTag?_eq_some_iff.mpr rfl]

end Record

end NetRanges
