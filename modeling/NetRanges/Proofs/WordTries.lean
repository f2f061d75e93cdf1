import NetRanges.Matcher.BlockTrie
import NetRanges.Proofs.Tries
import NetRanges.Proofs.Words

/-!
# Tries in words

The nodes of a trie with the places of their children in words of 32 bits. The root is the child of
no node, so the word zero says that there is no child. To look at a node that is not there, or at a
bit that a key does not have, gives no result (`walk?`, `descend?`). Read with `WordNode.node`, a
walk in words is a walk of the trie, as long as there are no more nodes than words
(`exists_walk?_eq`): then the place of a new node is not cut off, and it is not taken for the root.
A descent writes no places, so it is a descent of the trie in any case (`descend?_eq`).
-/

namespace NetRanges

/-- The value of an address as a word. -/
def Address.key (a : Address) : Word :=
  .ofNat 128 a.value

/-- The value of the address of a block as a word. -/
def Block.key (b : Block) : Word :=
  b.address.key

theorem Address.toNat_key (a : Address) : a.key.toNat = a.value :=
  Word.toNat_ofNat (Nat.lt_of_lt_of_le a.value_lt a.family.size_le_pow)

/-- The bit of a key at a depth, counted from the most significant one of the family. -/
def Word.bitAt? (family : Family) (key : Word) (depth : Nat) : Option Bool :=
  if depth < family.bits then some ((key >>> (family.bits - 1 - depth)) &&& 1 == 1) else none

/-- A node with the places of its children as words, zero for none. -/
structure WordNode where
  zero : UInt32 := 0
  one : UInt32 := 0
  marked : Bool := false
deriving DecidableEq

namespace WordNode

/-- The place of the child for a bit, or zero. -/
def child (n : WordNode) (bit : Bool) : UInt32 :=
  if bit then n.one else n.zero

/-- The node with another child for a bit. -/
def withChild (bit : Bool) (place : UInt32) (n : WordNode) : WordNode :=
  if bit then { n with one := place } else { n with zero := place }

/-- The node at which a stored path ends. -/
def mark (n : WordNode) : WordNode :=
  { n with marked := true }

end WordNode

/-- A trie with its places as words. -/
structure WordTrie where
  family : Family
  nodes : Array WordNode
  stored : Nat
deriving DecidableEq

namespace WordTrie

def empty (family : Family) : WordTrie :=
  ⟨family, #[{}], 0⟩

/-- Follows the bits of a key from the node at `place`, which is at `depth`, for `left` more bits,
adds the nodes that are missing and marks the last one. Stops where a marked node comes before the
end, and tells which of both it was. -/
def walk? (family : Family) (key : Word) :
    (left depth : Nat) → Array WordNode → (place : Nat) → Option (Array WordNode × Bool)
  | 0, _, nodes, place => nodes[place]?.map fun _ => (nodes.modify place WordNode.mark, true)
  | left + 1, depth, nodes, place =>
    nodes[place]?.bind fun node =>
      if node.marked then some (nodes, false)
      else (Word.bitAt? family key depth).bind fun bit =>
        if node.child bit = 0 then
          let next := nodes.size
          walk? family key left (depth + 1)
            ((nodes.modify place (WordNode.withChild bit (.ofNat next))).push {}) next
        else walk? family key left (depth + 1) nodes (node.child bit).toNat

/-- The trie with one more block. -/
def insert? (t : WordTrie) (b : Block) : Option WordTrie :=
  (walk? t.family b.key b.length 0 t.nodes 0).map fun (nodes, reached) =>
    ⟨t.family, nodes, if reached then t.stored + 1 else t.stored⟩

/-- The trie of some blocks of a family, stored one after the other. -/
def ofBlocks? (family : Family) (bs : List Block) : Option WordTrie :=
  bs.foldlM insert? (empty family)

/-- Whether the bits of a key, from the node at `place` on, pass through a marked node. -/
def descend? (family : Family) (key : Word) (nodes : Array WordNode) :
    (left depth place : Nat) → Option Bool
  | 0, _, place => nodes[place]?.map WordNode.marked
  | left + 1, depth, place =>
    nodes[place]?.bind fun node =>
      if node.marked then some true
      else (Word.bitAt? family key depth).bind fun bit =>
        if node.child bit = 0 then some false
        else descend? family key nodes left (depth + 1) (node.child bit).toNat

/-- Whether a stored block has a key. -/
def contains? (t : WordTrie) (key : Word) : Option Bool :=
  descend? t.family key t.nodes t.family.bits 0 0

end WordTrie

/-! ## Reading words -/

namespace Word

variable {family : Family}

theorem bitAt?_eq (key : Word) {rest depth : Nat} (h : depth + (rest + 1) = family.bits) :
    bitAt? family key depth = some (key.toNat.testBit rest) := by
  have hdepth : depth < family.bits := by omega
  have hrest : family.bits - 1 - depth = rest := by omega
  have hbit : ((key >>> rest) &&& 1 == 1) = key.toNat.testBit rest := by
    rw [Bool.eq_iff_iff, beq_iff_eq, ← BitVec.toNat_inj, BitVec.toNat_and, BitVec.toNat_ushiftRight,
      toNat_one, Nat.and_one_is_mod, Nat.shiftRight_eq_div_pow, Nat.testBit_eq_decide_div_mod_eq,
      decide_eq_true_iff]
  rw [bitAt?, if_pos hdepth, hrest, hbit]

end Word

namespace WordNode

/-- The place that a word gives. -/
def place? (w : UInt32) : Option Nat :=
  if w = 0 then none else some w.toNat

/-- The node that is meant. -/
def node (n : WordNode) : TrieNode :=
  ⟨place? n.zero, place? n.one, n.marked⟩

theorem place?_ofNat {i : Nat} (hpos : 0 < i) (hlt : i < Nat.pow 2 32) :
    place? (.ofNat i) = some i := by
  have htoNat : (UInt32.ofNat i).toNat = i := UInt32.toNat_ofNat_of_lt' hlt
  have hne : UInt32.ofNat i ≠ 0 := by
    intro h
    rw [h] at htoNat
    exact absurd htoNat (Nat.ne_of_lt hpos)
  rw [place?, if_neg hne, htoNat]

theorem child_node (n : WordNode) (bit : Bool) : n.node.child bit = place? (n.child bit) := by
  cases bit <;> rfl

theorem node_withChild (n : WordNode) (bit : Bool) {i : Nat} (hpos : 0 < i)
    (hlt : i < Nat.pow 2 32) : (n.withChild bit (.ofNat i)).node = n.node.withChild bit i := by
  have hplace := place?_ofNat hpos hlt
  cases bit with
  | false => exact congrArg (fun p => TrieNode.mk p (place? n.one) n.marked) hplace
  | true => exact congrArg (fun p => TrieNode.mk (place? n.zero) p n.marked) hplace

end WordNode

namespace WordTrie

open BitTrie (Shaped childAt markedAt grow walk descend)

variable {words : Array WordNode} {place left depth rest : Nat} {family : Family}
  {key : Word}

/-- The nodes that are meant. -/
def read (words : Array WordNode) : Array TrieNode :=
  words.map WordNode.node

theorem size_read (words : Array WordNode) : (read words).size = words.size :=
  Array.size_map

theorem getElem?_read (words : Array WordNode) (place : Nat) :
    (read words)[place]? = words[place]?.map WordNode.node :=
  Array.getElem?_map ..

/-- What a node is read as. -/
theorem exists_getElem? (h : place < (read words).size) :
    ∃ n, words[place]? = some n ∧ markedAt (read words) place = n.marked ∧
      ∀ bit, childAt (read words) place bit = WordNode.place? (n.child bit) := by
  rw [size_read] at h
  have hsome : words[place]? = some words[place] := Array.getElem?_eq_getElem h
  have hnode : (read words).getD place {} = words[place].node := by
    rw [Array.getD_eq_getD_getElem?, getElem?_read, hsome]
    rfl
  refine ⟨words[place], hsome, ?_, fun bit => ?_⟩
  · rw [markedAt, hnode]
    rfl
  · rw [childAt, hnode, WordNode.child_node]

theorem read_modify {f : WordNode → WordNode} {g : TrieNode → TrieNode}
    (h : ∀ n, (f n).node = g n.node) (words : Array WordNode) (place : Nat) :
    read (words.modify place f) = (read words).modify place g := by
  apply Array.ext_getElem?
  intro i
  rw [getElem?_read, Array.getElem?_modify, Array.getElem?_modify, getElem?_read]
  split
  · rw [Option.map_map, Option.map_map]
    exact congrArg (fun k => Option.map k words[i]?) (funext h)
  · rfl

theorem read_mark (words : Array WordNode) (place : Nat) :
    read (words.modify place WordNode.mark) = (read words).modify place TrieNode.mark :=
  read_modify (fun _ => rfl) words place

/-- A node is added with its place if that is not cut off and is not the one of the root. -/
theorem read_grow (hpos : 0 < words.size) (hlt : words.size < Nat.pow 2 32) (place : Nat)
    (bit : Bool) :
    read ((words.modify place (WordNode.withChild bit (.ofNat words.size))).push {}) =
      grow (read words) place bit := by
  have hmodify := read_modify (fun n => n.node_withChild bit hpos hlt) words place
  rw [read, Array.map_push, ← read, hmodify, grow, size_read]
  rfl

/-! ## Walks and descents -/

/-- A walk in words is a walk of the trie, if the places of its nodes fit a word. -/
theorem exists_walk?_eq (hshaped : Shaped (read words)) (hplace : place < (read words).size)
    (hdepth : depth + rest = family.bits) (hleft : left ≤ rest)
    (hfits : (walk (read words) place ((bitPath rest key.toNat).take left)).1.size ≤ Nat.pow 2 32) :
    ∃ words' reached, walk? family key left depth words place = some (words', reached) ∧
      walk (read words) place ((bitPath rest key.toNat).take left) = (read words', reached) := by
  induction left generalizing words place depth rest with
  | zero =>
    obtain ⟨n, hn, -⟩ := exists_getElem? hplace
    refine ⟨words.modify place WordNode.mark, true, ?_, ?_⟩
    · rw [walk?, hn]
      rfl
    · rw [List.take_zero, read_mark]
      rfl
  | succ left ih =>
    obtain ⟨n, hn, hmarked, hchild⟩ := exists_getElem? hplace
    cases rest with
    | zero => exact absurd hleft (Nat.not_succ_le_zero left)
    | succ rest =>
      have hbit := Word.bitAt?_eq key hdepth
      have hlink := hchild (key.toNat.testBit rest)
      have hdepth' : depth + 1 + rest = family.bits := by omega
      have hleft' : left ≤ rest := Nat.le_of_succ_le_succ hleft
      rw [bitPath, List.take_succ_cons, BitTrie.walk_cons, hmarked, hlink] at hfits ⊢
      rw [walk?, hn, Option.bind_some, hbit, Option.bind_some]
      by_cases hm : n.marked = true
      · rw [if_pos hm, if_pos hm]
        exact ⟨words, false, rfl, rfl⟩
      · rw [if_neg hm, WordNode.place?] at hfits ⊢
        rw [if_neg hm]
        by_cases hzero : n.child (key.toNat.testBit rest) = 0
        · rw [if_pos hzero] at hfits ⊢
          rw [if_pos hzero]
          have hpos : 0 < words.size := size_read words ▸ hshaped.size_pos
          have hnew : words.size < (grow (read words) place (key.toNat.testBit rest)).size := by
            rw [BitTrie.size_grow, size_read]
            exact Nat.lt_succ_self _
          rw [size_read] at hfits ⊢
          -- The new node is one of those that are there in the end.
          have hlt : words.size < Nat.pow 2 32 :=
            Nat.lt_of_lt_of_le hnew (Nat.le_trans
              (BitTrie.size_le_size_walk (hshaped.grow hplace) hnew _) hfits)
          have hgrow := read_grow hpos hlt place (key.toNat.testBit rest)
          rw [← hgrow] at hnew hfits ⊢
          exact ih (hgrow ▸ hshaped.grow hplace) hnew hdepth' hleft' hfits
        · rw [WordNode.place?, if_neg hzero] at hlink
          rw [if_neg hzero] at hfits ⊢
          rw [if_neg hzero]
          exact ih hshaped (hshaped.later hlink).2 hdepth' hleft' hfits

/-- A descent in words is a descent of the trie. -/
theorem descend?_eq (hshaped : Shaped (read words)) (hplace : place < (read words).size)
    (hdepth : depth + left = family.bits) :
    descend? family key words left depth place =
      some (descend (read words) place (bitPath left key.toNat)) := by
  induction left generalizing place depth with
  | zero =>
    obtain ⟨n, hn, hmarked, -⟩ := exists_getElem? hplace
    rw [descend?, hn]
    exact congrArg some hmarked.symm
  | succ left ih =>
    obtain ⟨n, hn, hmarked, hchild⟩ := exists_getElem? hplace
    rw [descend?, hn, Option.bind_some, bitPath, BitTrie.descend_cons, hmarked]
    cases n.marked with
    | true => rfl
    | false =>
      have hbit := Word.bitAt?_eq key hdepth
      have hlink := hchild (key.toNat.testBit left)
      rw [if_neg Bool.false_ne_true, hbit, Option.bind_some, hlink, WordNode.place?,
        Bool.false_or]
      by_cases hzero : n.child (key.toNat.testBit left) = 0
      · rw [if_pos hzero, if_pos hzero]
        rfl
      · rw [WordNode.place?, if_neg hzero] at hlink
        rw [if_neg hzero, if_neg hzero, ih (hshaped.later hlink).2 (by omega)]
        rfl

/-! ## Any sequence of insertions -/

variable {t : WordTrie} {b : Block} {bs : List Block}

/-- The trie that is meant. -/
def trie (t : WordTrie) : BitTrie :=
  ⟨read t.nodes, t.stored⟩

theorem trie_empty (family : Family) : (empty family).trie = .empty := by
  have hread : read #[{}] = #[{}] := List.map_toArray
  exact congrArg (BitTrie.mk · 0) hread

theorem exists_insert?_eq (ht : t.trie.Sound) (hfamily : b.family = t.family)
    (hlength : b.length ≤ b.family.bits)
    (hfits : (t.trie.insert b.path).nodes.size ≤ Nat.pow 2 32) :
    ∃ u, t.insert? b = some u ∧ u.family = t.family ∧ u.trie = t.trie.insert b.path := by
  have hpath : (bitPath t.family.bits b.key.toNat).take b.length = b.path := by
    rw [← hfamily, Block.key, Address.toNat_key]
    rfl
  rw [hfamily] at hlength
  rw [BitTrie.nodes_insert, ← hpath] at hfits
  obtain ⟨words, reached, hwalk?, hwalk⟩ := exists_walk?_eq ht.shaped ht.shaped.size_pos
    (Nat.zero_add _) hlength hfits
  rw [hpath] at hwalk
  have hnodes : (t.trie.insert b.path).nodes = read words := congrArg Prod.fst hwalk
  have hstored : (t.trie.insert b.path).stored = if reached then t.stored + 1 else t.stored :=
    congrArg (fun r => if r.2 then t.stored + 1 else t.stored) hwalk
  refine ⟨⟨t.family, words, if reached then t.stored + 1 else t.stored⟩, ?_, rfl, ?_⟩
  · rw [insert?, hwalk?]
    rfl
  · exact congr (congrArg BitTrie.mk hnodes.symm) hstored.symm

theorem exists_foldlM_insert?_eq (ht : t.trie.Sound)
    (hbs : ∀ b ∈ bs, b.family = t.family ∧ b.length ≤ b.family.bits)
    (hfits : ((bs.map Block.path).foldl BitTrie.insert t.trie).nodes.size ≤ Nat.pow 2 32) :
    ∃ u, bs.foldlM insert? t = some u ∧ u.family = t.family ∧
      u.trie = (bs.map Block.path).foldl BitTrie.insert t.trie := by
  induction bs generalizing t with
  | nil => exact ⟨t, rfl, rfl, rfl⟩
  | cons b bs ih =>
    obtain ⟨⟨hfamily, hlength⟩, hbs⟩ := List.forall_mem_cons.mp hbs
    rw [List.map_cons, List.foldl_cons] at hfits ⊢
    have hsound := ht.insert b.path
    obtain ⟨u, hu, hufamily, hutrie⟩ := exists_insert?_eq ht hfamily hlength
      (Nat.le_trans (hsound.size_le_size_foldl_insert _) hfits)
    rw [← hutrie] at hsound hfits ⊢
    rw [← hufamily] at hbs ⊢
    obtain ⟨v, hv, hvfamily, hvtrie⟩ := ih hsound hbs hfits
    refine ⟨v, ?_, hvfamily, hvtrie⟩
    rw [List.foldlM_cons, hu]
    exact hv

/-- In words a trie is the same trie, if the places of its nodes fit a word. -/
theorem exists_ofBlocks?_eq (hbs : ∀ b ∈ bs, b.family = family ∧ b.length ≤ b.family.bits)
    (hfits : (BitTrie.ofPaths (bs.map Block.path)).nodes.size ≤ Nat.pow 2 32) :
    ∃ u, ofBlocks? family bs = some u ∧ u.family = family ∧
      u.trie = .ofPaths (bs.map Block.path) := by
  have hempty := trie_empty family
  rw [BitTrie.ofPaths, ← hempty] at hfits ⊢
  exact exists_foldlM_insert?_eq (hempty ▸ BitTrie.sound_empty) hbs hfits

theorem contains?_eq (ht : t.trie.Sound) {a : Address} (hfamily : a.family = t.family) :
    t.contains? a.key = some (t.trie.holds a.path) := by
  have hpath : bitPath t.family.bits a.key.toNat = a.path := by
    rw [← hfamily, Address.toNat_key]
    rfl
  rw [contains?, descend?_eq ht.shaped ht.shaped.size_pos (Nat.zero_add _), hpath]
  rfl

end WordTrie

end NetRanges
