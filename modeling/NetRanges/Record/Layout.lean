import NetRanges.Number.Positional
import NetRanges.Range.Basic

/-!
# Records

A record holds one range in bytes. A word is four bytes, most significant first. A record
starts with a word that names the family by the width of its addresses in bytes; then come
the two ends, each as a word with its length and as many bytes. A list of ranges is
written as its records one after the other.
-/

namespace NetRanges

abbrev Bytes := List UInt8

namespace Bytes

/-- The `k` lowest bytes of a number, most significant first. -/
def ofNat (k n : Nat) : Bytes :=
  (Positional.digits 256 k n).map UInt8.ofNat

/-- The number that bytes write, most significant first. -/
def toNat (bs : Bytes) : Nat :=
  Positional.ofDigits 256 (bs.map UInt8.toNat)

@[simp] theorem length_ofNat (k n : Nat) : (ofNat k n).length = k := by
  simp [ofNat]

theorem toNat_ofNat {k n : Nat} (h : n < Nat.pow 256 k) : toNat (ofNat k n) = n := by
  have hmap : (ofNat k n).map UInt8.toNat = Positional.digits 256 k n := by
    rw [ofNat, List.map_map]
    refine (List.map_congr_left fun d hd => ?_).trans (List.map_id _)
    exact UInt8.toNat_ofNat_of_lt' (Positional.lt_of_mem_digits (by decide) hd)
  rw [toNat, hmap, Positional.ofDigits_digits h]

theorem lt_of_mem_map_toNat {bs : Bytes} {d : Nat} (h : d ∈ bs.map UInt8.toNat) : d < 256 := by
  obtain ⟨x, -, rfl⟩ := List.mem_map.mp h
  exact x.toNat_lt

theorem toNat_lt (bs : Bytes) : bs.toNat < Nat.pow 256 bs.length := by
  have h := Positional.ofDigits_lt fun d (h : d ∈ bs.map UInt8.toNat) => lt_of_mem_map_toNat h
  rwa [List.length_map] at h

theorem ofNat_toNat (bs : Bytes) : ofNat bs.length bs.toNat = bs := by
  have h := Positional.digits_ofDigits fun d (h : d ∈ bs.map UInt8.toNat) => lt_of_mem_map_toNat h
  rw [List.length_map] at h
  rw [ofNat, toNat, h, List.map_map]
  exact (List.map_congr_left fun x _ => UInt8.ofNat_toNat).trans (List.map_id _)

def word (n : Nat) : Bytes :=
  ofNat 4 n

/-- The value of a word whose highest bit is its sign. -/
def signed (w : Bytes) : Int :=
  if w.toNat < 0x80000000 then w.toNat else w.toNat - 0x100000000

end Bytes

namespace Address

def bytes (a : Address) : Bytes :=
  .ofNat a.family.bytes a.value

/-- The field of an address: the number of its bytes as a word, then the bytes. -/
def recordField (a : Address) : Bytes :=
  .word a.family.bytes ++ a.bytes

end Address

namespace Family

/-- The family that a record's first word names. -/
def ofTag? (tag : Int) : Option Family :=
  [v4, v6].find? fun f => tag == f.bytes

end Family

namespace Range

/-- The record of a range. -/
def record (r : Range) : Bytes :=
  .word r.family.bytes ++ r.lower.recordField ++ r.upper.recordField

def recordLength (r : Range) : Nat :=
  3 * 4 + 2 * r.family.bytes

def records (rs : List Range) : Bytes :=
  rs.flatMap record

theorem length_record (r : Range) : r.record.length = r.recordLength := by
  simp [record, recordLength, Address.recordField, Address.bytes, Bytes.word, lower, upper]
  omega

end Range

end NetRanges
