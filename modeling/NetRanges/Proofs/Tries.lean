import Mathlib.Data.List.Induction
import NetRanges.Matcher.BitTrie

/-!
# The paths that a trie stores

The nodes of a trie form a tree: a child stands behind its parent, and no node has two
parents (`Shaped`). In a tree two paths that lead to one node are equal
(`Shaped.follow_injective`), so marking a node stores one path and no other. A walk keeps the
shape, stores the path unless a start of it is stored already, and forgets nothing
(`walk_spec`). Hence, in whatever order paths are inserted, a trie holds a path exactly when
one of them is a start of it (`holds_ofPaths_iff`).
-/

namespace NetRanges

namespace TrieNode

theorem child_withChild (n : TrieNode) (bit b : Bool) (place : Nat) :
    (n.withChild bit place).child b = if b = bit then some place else n.child b := by
  cases b <;> cases bit <;> rfl

@[simp] theorem marked_withChild (n : TrieNode) (bit : Bool) (place : Nat) :
    (n.withChild bit place).marked = n.marked := by
  cases bit <;> rfl

end TrieNode

namespace BitTrie

def childAt (nodes : Array TrieNode) (place : Nat) (bit : Bool) : Option Nat :=
  (nodes.getD place {}).child bit

def markedAt (nodes : Array TrieNode) (place : Nat) : Bool :=
  (nodes.getD place {}).marked

/-- The nodes with a new child of the node at `place`. -/
def grow (nodes : Array TrieNode) (place : Nat) (bit : Bool) : Array TrieNode :=
  (nodes.modify place (TrieNode.withChild bit nodes.size)).push {}

/-- Where a path from the node at `place` leads. -/
def follow (nodes : Array TrieNode) (place : Nat) (path : List Bool) : Option Nat :=
  path.foldlM (childAt nodes) place

/-- A path from the root leads to a marked node. -/
def Stored (nodes : Array TrieNode) (path : List Bool) : Prop :=
  ∃ i, follow nodes 0 path = some i ∧ markedAt nodes i = true

/-- Children stand behind their parents, and every node is the child of at most one node. -/
structure Shaped (nodes : Array TrieNode) : Prop where
  size_pos : 0 < nodes.size
  later : ∀ {i bit next}, childAt nodes i bit = some next → i < next ∧ next < nodes.size
  parent : ∀ {i j bit bit' next}, childAt nodes i bit = some next →
    childAt nodes j bit' = some next → i = j ∧ bit = bit'

variable {nodes : Array TrieNode} {place i j : Nat} {bit : Bool} {path p q before : List Bool}

/-! ## Following a path -/

@[simp] theorem follow_nil : follow nodes i [] = some i :=
  rfl

theorem follow_cons : follow nodes i (bit :: path) =
    (childAt nodes i bit).bind fun next => follow nodes next path := by
  simp only [follow, List.foldlM_cons]
  rfl

theorem follow_concat : follow nodes i (path ++ [bit]) =
    (follow nodes i path).bind fun next => childAt nodes next bit := by
  simp only [follow, List.foldlM_append, List.foldlM_cons, List.foldlM_nil, bind_pure]
  rfl

namespace Shaped

theorem follow_lt (h : Shaped nodes) (hi : i < nodes.size) (hp : follow nodes i path = some j) :
    j < nodes.size := by
  induction path generalizing i with
  | nil => exact Option.some.inj hp ▸ hi
  | cons bit path ih =>
    rw [follow_cons, Option.bind_eq_some_iff] at hp
    obtain ⟨next, hnext, hp⟩ := hp
    exact ih (h.later hnext).2 hp

/-- Only the empty path leads to the root. -/
theorem concat_ne_root (h : Shaped nodes) : follow nodes 0 (path ++ [bit]) ≠ some 0 := by
  rw [follow_concat]
  intro hp
  obtain ⟨next, -, hnext⟩ := Option.bind_eq_some_iff.mp hp
  exact absurd (h.later hnext).1 (Nat.not_lt_zero next)

/-- Paths that lead from the root to one node are equal. -/
theorem follow_injective (h : Shaped nodes) (hp : follow nodes 0 p = some i)
    (hq : follow nodes 0 q = some i) : p = q := by
  induction p using List.reverseRecOn generalizing q i with
  | nil =>
    obtain rfl : 0 = i := Option.some.inj hp
    cases q using List.reverseRecOn with
    | nil => rfl
    | append_singleton q b => exact absurd hq h.concat_ne_root
  | append_singleton p a ih =>
    cases q using List.reverseRecOn with
    | nil =>
      obtain rfl : 0 = i := Option.some.inj hq
      exact absurd hp h.concat_ne_root
    | append_singleton q b =>
      rw [follow_concat, Option.bind_eq_some_iff] at hp hq
      obtain ⟨k, hp, ha⟩ := hp
      obtain ⟨l, hq, hb⟩ := hq
      obtain ⟨rfl, rfl⟩ := h.parent ha hb
      rw [ih hp hq]

end Shaped

theorem descend_cons : descend nodes place (bit :: path) = (markedAt nodes place ||
    (childAt nodes place bit).any fun next => descend nodes next path) := by
  rw [descend]
  show (markedAt nodes place || _) = _
  congr 1
  unfold childAt
  cases (nodes.getD place {}).child bit <;> rfl

/-- A descent finds a marked node when a start of the path leads to one. -/
theorem descend_iff : descend nodes place path = true ↔
    ∃ p, p <+: path ∧ ∃ i, follow nodes place p = some i ∧ markedAt nodes i = true := by
  induction path generalizing place with
  | nil =>
    constructor
    · intro h
      exact ⟨[], List.nil_prefix, place, rfl, h⟩
    · rintro ⟨p, hp, i, hi, hm⟩
      obtain rfl := List.prefix_nil.mp hp
      obtain rfl : place = i := Option.some.inj hi
      exact hm
  | cons bit path ih =>
    rw [descend_cons, Bool.or_eq_true, Option.any_eq_true]
    constructor
    · rintro (hm | ⟨next, hnext, h⟩)
      · exact ⟨[], List.nil_prefix, place, rfl, hm⟩
      · obtain ⟨p, hp, i, hi, hm⟩ := ih.mp h
        refine ⟨bit :: p, List.cons_prefix_cons.mpr ⟨rfl, hp⟩, i, ?_, hm⟩
        rw [follow_cons, hnext]
        exact hi
    · rintro ⟨p, hp, i, hi, hm⟩
      cases p with
      | nil =>
        obtain rfl : place = i := Option.some.inj hi
        exact Or.inl hm
      | cons b p =>
        obtain ⟨rfl, hpre⟩ := List.cons_prefix_cons.mp hp
        rw [follow_cons, Option.bind_eq_some_iff] at hi
        obtain ⟨next, hnext, hi⟩ := hi
        exact Or.inr ⟨next, hnext, ih.mpr ⟨p, hpre, i, hi, hm⟩⟩

theorem holds_iff {t : BitTrie} : t.holds path = true ↔ ∃ p, p <+: path ∧ Stored t.nodes p :=
  descend_iff

/-! ## Adding a child -/

theorem getD_grow (h : place < nodes.size) : (grow nodes place bit).getD i {} =
    if i = place then (nodes.getD i {}).withChild bit nodes.size else nodes.getD i {} := by
  simp only [grow, Array.getD_eq_getD_getElem?, Array.getElem?_push, Array.size_modify,
    Array.getElem?_modify]
  by_cases hi : i = nodes.size
  · rw [if_pos hi, if_neg (by omega), hi, Array.getElem?_size]
    rfl
  · rw [if_neg hi]
    by_cases hp : i = place
    · subst hp
      rw [if_pos rfl, if_pos rfl, Array.getElem?_eq_getElem h]
      rfl
    · rw [if_neg hp, if_neg (fun h => hp h.symm)]

theorem size_grow : (grow nodes place bit).size = nodes.size + 1 := by
  rw [grow, Array.size_push, Array.size_modify]

theorem childAt_grow (h : place < nodes.size) {b : Bool} : childAt (grow nodes place bit) i b =
    if i = place ∧ b = bit then some nodes.size else childAt nodes i b := by
  rw [childAt, getD_grow h]
  by_cases hi : i = place
  · rw [if_pos hi, TrieNode.child_withChild]
    simp only [hi, true_and]
    rfl
  · simp only [hi, false_and, if_false]
    rfl

theorem markedAt_grow (h : place < nodes.size) :
    markedAt (grow nodes place bit) i = markedAt nodes i := by
  rw [markedAt, getD_grow h]
  split
  · exact TrieNode.marked_withChild _ _ _
  · rfl

theorem Shaped.grow (h : Shaped nodes) (hplace : place < nodes.size) :
    Shaped (grow nodes place bit) where
  size_pos := by
    rw [size_grow]
    exact Nat.succ_pos _
  later {i b next} hi := by
    rw [childAt_grow hplace] at hi
    rw [size_grow]
    by_cases hib : i = place ∧ b = bit
    · rw [if_pos hib] at hi
      obtain rfl := Option.some.inj hi
      exact ⟨hib.1 ▸ hplace, Nat.lt_succ_self _⟩
    · rw [if_neg hib] at hi
      obtain ⟨hlt, hsize⟩ := h.later hi
      exact ⟨hlt, Nat.lt_succ_of_lt hsize⟩
  parent {i j b c next} hi hj := by
    rw [childAt_grow hplace] at hi hj
    -- The new child is behind all nodes there were, so no older node has it as its child.
    have hnew {i b} (hi : childAt nodes i b = some next) (hnext : some nodes.size = some next) :
        False := by
      have := (h.later hi).2
      cases hnext
      omega
    by_cases hib : i = place ∧ b = bit
    · rw [if_pos hib] at hi
      by_cases hjc : j = place ∧ c = bit
      · exact ⟨hib.1.trans hjc.1.symm, hib.2.trans hjc.2.symm⟩
      · rw [if_neg hjc] at hj
        exact (hnew hj hi).elim
    · rw [if_neg hib] at hi
      by_cases hjc : j = place ∧ c = bit
      · rw [if_pos hjc] at hj
        exact (hnew hi hj).elim
      · rw [if_neg hjc] at hj
        exact h.parent hi hj

/-- Paths that led to a node before a child is added still lead to it. -/
theorem follow_grow (hplace : place < nodes.size) (hnone : childAt nodes place bit = none)
    (h : follow nodes i path = some j) : follow (grow nodes place bit) i path = some j := by
  induction path generalizing i with
  | nil => exact h
  | cons b path ih =>
    rw [follow_cons, Option.bind_eq_some_iff] at h
    obtain ⟨next, hnext, h⟩ := h
    have hold : ¬ (i = place ∧ b = bit) := by
      rintro ⟨rfl, rfl⟩
      rw [hnone] at hnext
      cases hnext
    rw [follow_cons, childAt_grow hplace, if_neg hold, hnext]
    exact ih h

/-- Every other path leads to the new child. -/
theorem follow_of_follow_grow (hplace : place < nodes.size)
    (h : follow (grow nodes place bit) i path = some j) :
    follow nodes i path = some j ∨ j = nodes.size := by
  induction path generalizing i with
  | nil => exact Or.inl h
  | cons b path ih =>
    rw [follow_cons, childAt_grow hplace] at h
    split at h
    · right
      cases path with
      | nil => exact (Option.some.inj h).symm
      | cons c path =>
        -- The new child has no children.
        have hnone : childAt nodes nodes.size c = none := by
          rw [childAt, Array.getD_eq_getD_getElem?, Array.getElem?_size]
          cases c <;> rfl
        have hne : ¬ (nodes.size = place ∧ c = bit) := fun heq => by omega
        rw [Option.bind_some, follow_cons, childAt_grow hplace, if_neg hne, hnone] at h
        cases h
    · rw [Option.bind_eq_some_iff] at h
      obtain ⟨next, hnext, h⟩ := h
      rw [follow_cons, hnext]
      exact ih h

theorem stored_grow (hplace : place < nodes.size) (hnone : childAt nodes place bit = none) :
    Stored (grow nodes place bit) path ↔ Stored nodes path := by
  constructor
  · rintro ⟨i, hi, hm⟩
    rw [markedAt_grow hplace] at hm
    rcases follow_of_follow_grow hplace hi with hi | rfl
    · exact ⟨i, hi, hm⟩
    · rw [markedAt, Array.getD_eq_getD_getElem?, Array.getElem?_size] at hm
      cases hm
  · rintro ⟨i, hi, hm⟩
    refine ⟨i, follow_grow hplace hnone hi, ?_⟩
    rwa [markedAt_grow hplace]

/-! ## Marking a node -/

theorem childAt_mark : childAt (nodes.modify place TrieNode.mark) i bit = childAt nodes i bit := by
  simp only [childAt, Array.getD_eq_getD_getElem?, Array.getElem?_modify]
  split
  · cases nodes[i]? <;> rfl
  · rfl

theorem markedAt_mark (h : place < nodes.size) :
    markedAt (nodes.modify place TrieNode.mark) i = true ↔ markedAt nodes i = true ∨ i = place := by
  simp only [markedAt, Array.getD_eq_getD_getElem?, Array.getElem?_modify]
  by_cases hi : place = i
  · subst hi
    rw [if_pos rfl, Array.getElem?_eq_getElem h]
    exact iff_of_true rfl (Or.inr rfl)
  · rw [if_neg hi]
    exact (or_iff_left fun heq => hi heq.symm).symm

theorem follow_mark : follow (nodes.modify place TrieNode.mark) i path = follow nodes i path := by
  have hchild : childAt (nodes.modify place TrieNode.mark) = childAt nodes := by
    funext i bit
    exact childAt_mark
  rw [follow, hchild]
  rfl

theorem Shaped.mark (h : Shaped nodes) : Shaped (nodes.modify place TrieNode.mark) where
  size_pos := by
    rw [Array.size_modify]
    exact h.size_pos
  later hi := by
    rw [childAt_mark] at hi
    rw [Array.size_modify]
    exact h.later hi
  parent hi hj := by
    rw [childAt_mark] at hi hj
    exact h.parent hi hj

/-- Marking a node stores the only path that leads to it. -/
theorem Shaped.stored_mark (h : Shaped nodes) (hq : follow nodes 0 q = some place) :
    Stored (nodes.modify place TrieNode.mark) p ↔ Stored nodes p ∨ p = q := by
  have hplace := h.follow_lt h.size_pos hq
  simp only [Stored, follow_mark, markedAt_mark hplace]
  constructor
  · rintro ⟨i, hi, hm | rfl⟩
    · exact Or.inl ⟨i, hi, hm⟩
    · exact Or.inr (h.follow_injective hi hq)
  · rintro (⟨i, hi, hm⟩ | rfl)
    · exact ⟨i, hi, Or.inl hm⟩
    · exact ⟨place, hq, Or.inr rfl⟩

/-! ## Walking -/

theorem walk_cons : walk nodes place (bit :: path) =
    if markedAt nodes place then (nodes, false)
    else match childAt nodes place bit with
      | some next => walk nodes next path
      | none => walk (grow nodes place bit) nodes.size path :=
  rfl

/-- What growing and marking keep is kept by a walk. -/
theorem walk_induction {P : Array TrieNode → Prop} (h : Shaped nodes) (hplace : place < nodes.size)
    (hmark : ∀ {nodes place}, place < nodes.size → P nodes →
      P (nodes.modify place TrieNode.mark))
    (hgrow : ∀ {nodes place bit}, place < nodes.size → childAt nodes place bit = none → P nodes →
      P (grow nodes place bit))
    (hP : P nodes) (path : List Bool) : P (walk nodes place path).1 := by
  induction path generalizing nodes place with
  | nil => exact hmark hplace hP
  | cons bit path ih =>
    rw [walk_cons]
    split
    · exact hP
    · cases hchild : childAt nodes place bit with
      | some next => exact ih h (h.later hchild).2 hP
      | none =>
        have hnew : nodes.size < (grow nodes place bit).size := by
          rw [size_grow]
          exact Nat.lt_succ_self _
        exact ih (h.grow hplace) hnew (hgrow hplace hchild hP)

/-- Nodes are only added. -/
theorem size_le_size_walk (h : Shaped nodes) (hplace : place < nodes.size) (path : List Bool) :
    nodes.size ≤ (walk nodes place path).1.size := by
  refine walk_induction (P := fun nodes' => nodes.size ≤ nodes'.size) h hplace ?_ ?_
    (Nat.le_refl _) path
  · intro nodes' place' _ hle
    rwa [Array.size_modify]
  · intro nodes' place' bit' _ _ hle
    rw [size_grow]
    exact Nat.le_succ_of_le hle

/-- A walk from the end of `before` keeps the shape, stores the path if it reaches its end, and
finds a start of the path stored already if it does not. -/
theorem walk_spec (h : Shaped nodes) (hplace : follow nodes 0 before = some place)
    (path : List Bool) :
    Shaped (walk nodes place path).1 ∧
      (∀ p, Stored (walk nodes place path).1 p ↔
        Stored nodes p ∨ (walk nodes place path).2 = true ∧ p = before ++ path) ∧
      ((walk nodes place path).2 = false → ∃ p, p <+: path ∧ Stored nodes (before ++ p)) := by
  induction path generalizing nodes place before with
  | nil =>
    refine ⟨h.mark, fun p => ?_, nofun⟩
    rw [List.append_nil]
    exact (h.stored_mark hplace).trans (or_congr_right (and_iff_right rfl).symm)
  | cons bit path ih =>
    have hsize := h.follow_lt h.size_pos hplace
    have happend : before ++ bit :: path = before ++ [bit] ++ path := by simp
    have hstart {p : List Bool} (hp : p <+: path) (hs : Stored nodes (before ++ [bit] ++ p)) :
        ∃ q, q <+: bit :: path ∧ Stored nodes (before ++ q) := by
      refine ⟨bit :: p, List.cons_prefix_cons.mpr ⟨rfl, hp⟩, ?_⟩
      rwa [List.append_assoc] at hs
    rw [walk_cons]
    by_cases hm : markedAt nodes place = true
    · rw [if_pos hm]
      refine ⟨h, fun p => ?_, fun _ => ⟨[], List.nil_prefix, place, ?_, hm⟩⟩
      · exact (or_iff_left fun hp => Bool.noConfusion hp.1).symm
      · rwa [List.append_nil]
    · rw [if_neg hm, happend]
      cases hchild : childAt nodes place bit with
      | some next =>
        have hnext : follow nodes 0 (before ++ [bit]) = some next := by
          rw [follow_concat, hplace]
          exact hchild
        obtain ⟨hshape, hstored, hstop⟩ := ih h hnext
        refine ⟨hshape, hstored, fun hr => ?_⟩
        obtain ⟨p, hp, hs⟩ := hstop hr
        exact hstart hp hs
      | none =>
        have hnext : follow (grow nodes place bit) 0 (before ++ [bit]) = some nodes.size := by
          rw [follow_concat, follow_grow hsize hchild hplace, Option.bind_some, childAt_grow hsize,
            if_pos ⟨rfl, rfl⟩]
        obtain ⟨hshape, hstored, hstop⟩ := ih (h.grow hsize) hnext
        refine ⟨hshape, fun p => ?_, fun hr => ?_⟩
        · rw [hstored p, stored_grow hsize hchild]
        · obtain ⟨p, hp, hs⟩ := hstop hr
          exact hstart hp ((stored_grow hsize hchild).mp hs)

/-! ## Any sequence of insertions -/

/-- The nodes form a tree, and where a path is stored the count is not zero. -/
structure Sound (t : BitTrie) : Prop where
  shaped : Shaped t.nodes
  stored_pos : ∀ {p}, Stored t.nodes p → 0 < t.stored

theorem not_stored_empty : ¬ Stored empty.nodes p := by
  rintro ⟨i, -, hm⟩
  cases i with
  | zero => exact Bool.noConfusion hm
  | succ i => exact Bool.noConfusion hm

theorem sound_empty : Sound empty where
  shaped := by
    have hnone {i bit} : childAt empty.nodes i bit = none := by
      cases i <;> cases bit <;> rfl
    refine ⟨Nat.one_pos, fun hi => ?_, fun hi => ?_⟩
    · rw [hnone] at hi
      cases hi
    · rw [hnone] at hi
      cases hi
  stored_pos hp := (not_stored_empty hp).elim

variable {t : BitTrie}

theorem nodes_insert : (t.insert path).nodes = (walk t.nodes 0 path).1 :=
  rfl

theorem stored_insert : (t.insert path).stored =
    if (walk t.nodes 0 path).2 then t.stored + 1 else t.stored :=
  rfl

/-- Inserting a path adds it to what is held, with all paths that it is a start of. -/
theorem Sound.holds_insert_iff (h : t.Sound) :
    (t.insert path).holds p = true ↔ t.holds p = true ∨ path <+: p := by
  obtain ⟨-, hstored, hstop⟩ := walk_spec h.shaped follow_nil path
  rw [holds_iff, holds_iff, nodes_insert]
  simp only [hstored]
  constructor
  · rintro ⟨q, hq, hs | ⟨-, rfl⟩⟩
    · exact Or.inl ⟨q, hq, hs⟩
    · exact Or.inr hq
  · rintro (⟨q, hq, hs⟩ | hq)
    · exact ⟨q, hq, Or.inl hs⟩
    · cases hr : (walk t.nodes 0 path).2 with
      | true => exact ⟨path, hq, Or.inr ⟨rfl, rfl⟩⟩
      | false =>
        obtain ⟨q', hq', hs⟩ := hstop hr
        exact ⟨q', hq'.trans hq, Or.inl hs⟩

/-- A walk that stops early has met a stored path, so something was counted before. -/
theorem Sound.stored_insert_pos (h : t.Sound) (path : List Bool) : 0 < (t.insert path).stored := by
  obtain ⟨-, -, hstop⟩ := walk_spec h.shaped follow_nil path
  rw [stored_insert]
  cases hr : (walk t.nodes 0 path).2 with
  | true => exact Nat.succ_pos _
  | false =>
    obtain ⟨q, -, hs⟩ := hstop hr
    exact h.stored_pos hs

theorem Sound.insert (h : t.Sound) (path : List Bool) : (t.insert path).Sound where
  shaped := (walk_spec h.shaped follow_nil path).1
  stored_pos _ := h.stored_insert_pos path

/-- What insertions keep is kept by any number of them. -/
theorem Sound.foldl_induction {P : BitTrie → Prop} (h : t.Sound)
    (hinsert : ∀ {u}, u.Sound → P u → ∀ path, P (u.insert path)) (ht : P t)
    (paths : List (List Bool)) : P (paths.foldl BitTrie.insert t) := by
  induction paths generalizing t with
  | nil => exact ht
  | cons path paths ih => exact ih (h.insert path) (hinsert h ht path)

theorem Sound.size_le_size_foldl_insert (h : t.Sound) (paths : List (List Bool)) :
    t.nodes.size ≤ (paths.foldl BitTrie.insert t).nodes.size :=
  h.foldl_induction (P := fun u => t.nodes.size ≤ u.nodes.size)
    (fun hu hle path =>
      Nat.le_trans hle (size_le_size_walk hu.shaped hu.shaped.size_pos path))
    (Nat.le_refl _) paths

theorem Sound.foldl_insert (h : t.Sound) (paths : List (List Bool)) :
    (paths.foldl BitTrie.insert t).Sound ∧
      ((paths.foldl BitTrie.insert t).holds p = true ↔
        t.holds p = true ∨ ∃ path ∈ paths, path <+: p) ∧
      ((paths.foldl BitTrie.insert t).stored = 0 ↔ t.stored = 0 ∧ paths = []) := by
  induction paths generalizing t with
  | nil => simp [h]
  | cons path paths ih =>
    obtain ⟨hsound, hholds, hzero⟩ := ih (h.insert path)
    refine ⟨hsound, ?_, ?_⟩
    · rw [List.foldl_cons, hholds, h.holds_insert_iff, or_assoc]
      simp only [List.mem_cons, or_and_right, exists_or, exists_eq_left]
    · have hpos := h.stored_insert_pos path
      rw [List.foldl_cons, hzero]
      constructor
      · rintro ⟨h0, -⟩
        omega
      · rintro ⟨-, hnil⟩
        cases hnil

theorem sound_ofPaths (paths : List (List Bool)) : (ofPaths paths).Sound :=
  (sound_empty.foldl_insert paths (p := [])).1

/-- **A trie holds what was inserted.** A path is held when one of the paths is a start of it. -/
theorem holds_ofPaths_iff {paths : List (List Bool)} :
    (ofPaths paths).holds p = true ↔ ∃ path ∈ paths, path <+: p := by
  have hempty : ¬ empty.holds p = true := by
    rw [holds_iff]
    rintro ⟨q, -, hs⟩
    exact not_stored_empty hs
  rw [ofPaths, (sound_empty.foldl_insert paths).2.1]
  exact or_iff_right hempty

theorem stored_ofPaths_eq_zero_iff {paths : List (List Bool)} :
    (ofPaths paths).stored = 0 ↔ paths = [] := by
  rw [ofPaths, (sound_empty.foldl_insert paths (p := [])).2.2]
  exact and_iff_right rfl

end BitTrie

end NetRanges
