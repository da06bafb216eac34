import VehiclePrivacy.Geofence.Corridor

/-!
# A tree of quarters

Corridors are kept in the leaves of a tree whose nodes quarter their box. A corridor is stored in
every leaf whose box it touches, so a position is looked up along a single path. A leaf splits when
it holds more corridors than its capacity, unless it is at the deepest level already.

Splitting distributes a full leaf's corridors over four empty leaves in order, each of which may
split in turn; `grow` says what comes of that in one recursion over the levels that are left.
-/

namespace VehiclePrivacy

/-- When leaves split. -/
structure QuadTree.Limits where
  /-- How many corridors a leaf holds before it splits. -/
  leafCapacity : Nat := 32
  /-- The depth at which leaves never split. -/
  maxDepth : Nat := 12
  deriving DecidableEq

/-- A tree of quarters. -/
inductive QuadTree where
  | leaf (box : Box) (corridors : List Corridor)
  | node (box : Box) (sw se nw ne : QuadTree)

namespace QuadTree

/-- The box that a tree covers. -/
def box : QuadTree → Box
  | leaf b _ => b
  | node b _ _ _ _ => b

/-- The tree without corridors. -/
def empty (b : Box) : QuadTree := leaf b []

/-- The corridors that touch a box, in order. -/
def touching (b : Box) (cs : List Corridor) : List Corridor :=
  cs.filter fun c => b.meets c.box

/-- The tree over a box that holds the given corridors, with so many levels below it at most. -/
def grow (capacity : Nat) : (levels : Nat) → Box → List Corridor → QuadTree
  | 0, b, cs => leaf b cs
  | levels + 1, b, cs =>
    if cs.length ≤ capacity then leaf b cs
    else
      let quarter (q : Box) : QuadTree := grow capacity levels q (touching q cs)
      node b (quarter b.southWest) (quarter b.southEast) (quarter b.northWest)
        (quarter b.northEast)

/-- Adds a corridor to the leaves that it touches, with so many levels at most, and tells whether
it was stored. -/
def insertWithin (capacity levels : Nat) (c : Corridor) : QuadTree → QuadTree × Bool
  | leaf b cs =>
    if b.meets c.box then (grow capacity levels b (cs ++ [c]), true) else (leaf b cs, false)
  | node b sw se nw ne =>
    if b.meets c.box then
      let (sw, inSw) := sw.insertWithin capacity (levels - 1) c
      let (se, inSe) := se.insertWithin capacity (levels - 1) c
      let (nw, inNw) := nw.insertWithin capacity (levels - 1) c
      let (ne, inNe) := ne.insertWithin capacity (levels - 1) c
      (node b sw se nw ne, inSw || inSe || inNw || inNe)
    else (node b sw se nw ne, false)

/-- Adds a corridor to a whole tree, and tells whether it was stored. -/
def insert (l : Limits) (t : QuadTree) (c : Corridor) : QuadTree × Bool :=
  t.insertWithin l.leafCapacity l.maxDepth c

/-- The corridors of the leaf that covers a position: the first child that contains it, in the
order of the quarters, leads there. -/
def corridorsAt (p : Point) : QuadTree → List Corridor
  | leaf b cs => if b.contains p then cs else []
  | node b sw se nw ne =>
    if !b.contains p then []
    else if sw.box.contains p then sw.corridorsAt p
    else if se.box.contains p then se.corridorsAt p
    else if nw.box.contains p then nw.corridorsAt p
    else if ne.box.contains p then ne.corridorsAt p
    else []

/-- The first stored corridor with the position in it. -/
def find? (t : QuadTree) (p : Point) : Option Corridor :=
  (t.corridorsAt p).find? (·.contains p)

/-- The number of levels below the root. -/
def depth : QuadTree → Nat
  | leaf _ _ => 0
  | node _ sw se nw ne => 1 + max (max sw.depth se.depth) (max nw.depth ne.depth)

/-- The number of stored corridors, each counted once for every leaf that holds it. -/
def entries : QuadTree → Nat
  | leaf _ cs => cs.length
  | node _ sw se nw ne => sw.entries + se.entries + nw.entries + ne.entries

end QuadTree

end VehiclePrivacy
