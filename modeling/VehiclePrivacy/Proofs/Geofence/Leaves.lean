import Mathlib.Data.List.Chain
import VehiclePrivacy.Proofs.Geofence.Splitting

/-!
# What the leaves of a tree hold

A tree is read as the list of its leaves, each with the boxes on the way from the root to it. All
corridors are stored there (`entries_eq`), and which ones a leaf holds is said by its path alone: of
those that were inserted, in their order, the ones that touch every box on the path (`Leaf.Holds`).
Nothing is said of when the leaf came to be, and nothing depends on it.

This is shown of the tree that `grow` makes, by induction on the levels that are left, and so it
holds after any number of insertions (`fills_leaves`).
-/

namespace VehiclePrivacy

namespace QuadTree

/-- A leaf of a tree. -/
structure Leaf where
  /-- The boxes of the nodes above it, the root first. -/
  above : List Box
  box : Box
  corridors : List Corridor

namespace Leaf

/-- The number of nodes above the leaf. -/
def depth (x : Leaf) : Nat := x.above.length

/-- The boxes on the way from the root to the leaf, with its own. -/
def path (x : Leaf) : List Box := x.above ++ [x.box]

/-- The leaf as it is seen from one node further up. -/
def below (b : Box) (x : Leaf) : Leaf := { x with above := b :: x.above }

@[simp] theorem depth_below (b : Box) (x : Leaf) : (x.below b).depth = x.depth + 1 := rfl

@[simp] theorem path_below (b : Box) (x : Leaf) : (x.below b).path = b :: x.path := rfl

@[simp] theorem corridors_below (b : Box) (x : Leaf) :
    (x.below b).corridors = x.corridors := rfl

end Leaf

/-- The leaves of a tree, in the order of the quarters. -/
def leaves : QuadTree → List Leaf
  | leaf b cs => [⟨[], b, cs⟩]
  | node b sw se nw ne => (sw.leaves ++ se.leaves ++ nw.leaves ++ ne.leaves).map (Leaf.below b)

/-- All corridors are stored in leaves. -/
theorem entries_eq (t : QuadTree) : t.entries = (t.leaves.flatMap (·.corridors)).length := by
  have hbelow : ∀ (b : Box) (xs : List Leaf),
      (xs.map (Leaf.below b)).flatMap (·.corridors) = xs.flatMap (·.corridors) := by
    intro b xs
    rw [List.flatMap_map]
    rfl
  induction t with
  | leaf b cs => simp [entries, leaves]
  | node b sw se nw ne ihsw ihse ihnw ihne =>
    rw [entries, leaves, hbelow]
    simp only [List.flatMap_append, List.length_append, ihsw, ihse, ihnw, ihne]

/-- A leaf below a node is a leaf of one of its children. -/
theorem mem_leaves_node {b : Box} {sw se nw ne : QuadTree} {x : Leaf} :
    x ∈ (node b sw se nw ne).leaves ↔
      ∃ t ∈ [sw, se, nw, ne], ∃ y ∈ t.leaves, y.below b = x := by
  simp only [leaves, List.mem_map, List.mem_append, List.mem_cons, List.not_mem_nil, or_false]
  constructor
  · rintro ⟨y, ((hy | hy) | hy) | hy, rfl⟩
    · exact ⟨sw, .inl rfl, y, hy, rfl⟩
    · exact ⟨se, .inr (.inl rfl), y, hy, rfl⟩
    · exact ⟨nw, .inr (.inr (.inl rfl)), y, hy, rfl⟩
    · exact ⟨ne, .inr (.inr (.inr rfl)), y, hy, rfl⟩
  · rintro ⟨t, rfl | rfl | rfl | rfl, y, hy, rfl⟩
    · exact ⟨y, .inl (.inl (.inl hy)), rfl⟩
    · exact ⟨y, .inl (.inl (.inr hy)), rfl⟩
    · exact ⟨y, .inl (.inr hy), rfl⟩
    · exact ⟨y, .inr hy, rfl⟩

variable {capacity levels : Nat} {b : Box} {cs : List Corridor} {x : Leaf}

/-- The leaves of a tree that has split are the leaves of its quarters. -/
theorem mem_leaves_grow (hfull : capacity < cs.length) :
    x ∈ (grow capacity (levels + 1) b cs).leaves ↔
      ∃ q ∈ b.quarters, ∃ y ∈ (grow capacity levels q (touching q cs)).leaves, y.below b = x := by
  rw [grow_of_lt hfull, mem_leaves_node, Box.quarters]
  simp only [List.mem_cons, List.not_mem_nil, or_false, exists_eq_or_imp, exists_eq_left]

/-- The leaves of a tree with no more levels are the tree itself. -/
theorem mem_leaves_leaf : x ∈ (leaf b cs).leaves ↔ x = ⟨[], b, cs⟩ := List.mem_singleton

/-- What is said of a leaf of a tree over a box, with so many levels at most, that corridors were
inserted into. -/
structure Leaf.Holds (capacity levels : Nat) (b : Box) (cs : List Corridor) (x : Leaf) : Prop where
  /-- The leaf is not too deep. -/
  depth : x.depth ≤ levels
  /-- It holds no more than its capacity, unless it is at the last depth. -/
  capacity : x.depth < levels → x.corridors.length ≤ capacity
  /-- Its path starts at the box of the root. -/
  root : x.path.head? = some b
  /-- Each further box on the path is a quarter of the one before. -/
  quarters : x.path.IsChain fun p q => q ∈ p.quarters
  /-- It holds the corridors that touch every box on the path, in the order of insertion. -/
  corridors : x.corridors = cs.filter fun c => x.path.all fun p => p.meets c.box

/-- What a tree's only leaf holds. -/
theorem holds_leaf (h : levels = 0 ∨ (touching b cs).length ≤ capacity) :
    (Leaf.mk [] b (touching b cs)).Holds capacity levels b cs where
  depth := Nat.zero_le levels
  capacity := by
    intro hlevels
    have hlevels : 0 < levels := hlevels
    rcases h with rfl | h
    · omega
    · exact h
  root := rfl
  quarters := List.isChain_singleton b
  corridors := by
    simp only [Leaf.path, List.nil_append, List.all_cons, List.all_nil, Bool.and_true]
    rfl

/-- What a leaf of a quarter holds, seen from the tree that has split. -/
theorem Leaf.Holds.below {q : Box} (hq : q ∈ b.quarters)
    (h : x.Holds capacity levels q (touching b cs)) :
    (x.below b).Holds capacity (levels + 1) b cs where
  depth := by
    have := h.depth
    rw [Leaf.depth_below]
    omega
  capacity := by
    intro hdepth
    rw [Leaf.depth_below] at hdepth
    exact h.capacity (by omega)
  root := rfl
  quarters := by
    rw [Leaf.path_below, List.isChain_cons]
    refine ⟨?_, h.quarters⟩
    intro p hp
    rw [h.root] at hp
    exact Option.some.inj hp ▸ hq
  corridors := by
    rw [Leaf.corridors_below, h.corridors, touching, List.filter_filter, Leaf.path_below]
    congr 1
    funext c
    rw [List.all_cons, Bool.and_comm]

/-- **The leaves of a grown tree** hold what their paths say. -/
theorem holds_of_mem_grow (h : x ∈ (grow capacity levels b (touching b cs)).leaves) :
    x.Holds capacity levels b cs := by
  generalize htouching : touching b cs = ds at h
  induction levels, b, ds using grow_ind capacity generalizing cs x with
  | leaf levels b ds hlast hgrow =>
    subst htouching
    rw [hgrow] at h
    obtain rfl := mem_leaves_leaf.mp h
    exact holds_leaf hlast
  | split levels b ds hfull ih =>
    subst htouching
    obtain ⟨q, hq, y, hy, rfl⟩ := (mem_leaves_grow hfull).mp h
    exact (ih q rfl hy).below hq

theorem depth_grow : (grow capacity levels b cs).depth ≤ levels := by
  induction levels, b, cs using grow_ind capacity with
  | leaf levels b cs _ hgrow =>
    rw [hgrow]
    exact Nat.zero_le levels
  | split levels b cs hfull ih =>
    have hsw := ih b.southWest
    have hse := ih b.southEast
    have hnw := ih b.northWest
    have hne := ih b.northEast
    rw [grow_of_lt hfull, depth]
    omega

/-- The tree after the insertion of corridors, one after the other. -/
def insertAll (l : Limits) (t : QuadTree) (cs : List Corridor) : QuadTree :=
  cs.foldl (fun t c => (t.insert l c).1) t

theorem insertAll_empty (l : Limits) (b : Box) (cs : List Corridor) :
    (empty b).insertAll l cs = grow l.leafCapacity l.maxDepth b (touching b cs) :=
  fillAt_empty l 0 b cs

/--
**What any insertions leave in a tree.** Whatever the limits, the box and the corridors are, NaN
among them or not, the insertion of corridors into an empty tree ends, one at a time and in one way
only, and so gives one tree. All that it stores is stored in leaves. It is no deeper than the limit,
and what each leaf holds is told by the boxes on its path: of the inserted corridors, in their
order, those that touch them all, and no more than the capacity except at the last depth.
-/
theorem fills_leaves (l : Limits) (b : Box) (cs : List Corridor) :
    ∃ t, (∀ t', Fills l 0 (empty b) cs t' ↔ t' = t) ∧ t = (empty b).insertAll l cs ∧
      t.entries = (t.leaves.flatMap (·.corridors)).length ∧
      t.depth ≤ l.maxDepth ∧
      ∀ x ∈ t.leaves, x.Holds l.leafCapacity l.maxDepth b cs := by
  have hgrown := insertAll_empty l b cs
  refine ⟨(empty b).insertAll l cs, fun t' => ?_, rfl, entries_eq _, ?_, fun x hx => ?_⟩
  · rw [fills_iff, eq_comm]
    rfl
  · rw [hgrown]
    exact depth_grow
  · rw [hgrown] at hx
    exact holds_of_mem_grow hx

end QuadTree

end VehiclePrivacy
