/-!
# Binary tries

A binary trie stores paths of bits. Its nodes stand in an array, the root first, and refer
to their children by place. A path is stored by marking the node it ends at; a path below
a marked node adds nothing. A longer path is held when it passes through a marked node.
-/

namespace NetRanges

/-- A node of a binary trie. -/
structure TrieNode where
  /-- The place of the child for the bit zero. -/
  zero : Option Nat := none
  /-- The place of the child for the bit one. -/
  one : Option Nat := none
  marked : Bool := false
deriving DecidableEq, Repr, Inhabited

namespace TrieNode

/-- The place of the child for a bit. -/
def child (n : TrieNode) (bit : Bool) : Option Nat :=
  if bit then n.one else n.zero

/-- The node with another child for a bit. -/
def withChild (bit : Bool) (place : Nat) (n : TrieNode) : TrieNode :=
  if bit then { n with one := some place } else { n with zero := some place }

/-- The node at which a stored path ends. -/
def mark (n : TrieNode) : TrieNode :=
  { n with marked := true }

end TrieNode

/-- A set of paths of bits. -/
structure BitTrie where
  nodes : Array TrieNode
  stored : Nat
deriving DecidableEq, Repr

namespace BitTrie

def empty : BitTrie :=
  ⟨#[{}], 0⟩

/-- Follows a path from the node at `place`, adds the nodes that are missing and marks the
last one. Stops where a marked node comes before the end, and tells which of both it was. -/
def walk (nodes : Array TrieNode) (place : Nat) : List Bool → Array TrieNode × Bool
  | [] => (nodes.modify place TrieNode.mark, true)
  | bit :: path =>
    let node := nodes.getD place {}
    if node.marked then (nodes, false)
    else
      match node.child bit with
      | some next => walk nodes next path
      | none =>
        let next := nodes.size
        walk ((nodes.modify place (TrieNode.withChild bit next)).push {}) next path

/-- The trie with one more path. -/
def insert (t : BitTrie) (path : List Bool) : BitTrie :=
  let (nodes, reached) := walk t.nodes 0 path
  ⟨nodes, if reached then t.stored + 1 else t.stored⟩

/-- The trie of some paths, stored one after the other. -/
def ofPaths (paths : List (List Bool)) : BitTrie :=
  paths.foldl insert empty

/-- Whether a path from the node at `place` passes through a marked node. -/
def descend (nodes : Array TrieNode) (place : Nat) : List Bool → Bool
  | [] => (nodes.getD place {}).marked
  | bit :: path =>
    let node := nodes.getD place {}
    node.marked ||
      match node.child bit with
      | some next => descend nodes next path
      | none => false

/-- Whether a stored path leads to a path or to a start of it. -/
def holds (t : BitTrie) (path : List Bool) : Bool :=
  descend t.nodes 0 path

end BitTrie

end NetRanges
