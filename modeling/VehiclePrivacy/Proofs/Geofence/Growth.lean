import VehiclePrivacy.Geofence.Index

/-!
# How the tree of a geofence grows

Corridors are added one at a time, leaves split on the way, and a leaf that splits hands down what
it holds. None of that can be seen in the end: the tree is the one that `grow` makes of all corridors
at once (`foldl_insertWithin_grow`), and the tree of a geofence is grown from the corridors that
touch its bounds (`ofSegments_grown`).
-/

namespace VehiclePrivacy

namespace QuadTree

variable {capacity levels : Nat} {b : Box} {c : Corridor} {cs ds : List Corridor}

theorem touching_append (b : Box) (cs ds : List Corridor) :
    touching b (cs ++ ds) = touching b cs ++ touching b ds := List.filter_append ..

theorem touching_of_meets (h : b.meets c.box = true) : touching b [c] = [c] :=
  List.filter_cons_of_pos h

theorem touching_of_not_meets (h : ¬ b.meets c.box = true) : touching b [c] = [] :=
  List.filter_cons_of_neg h

theorem grow_of_le (h : cs.length ≤ capacity) : grow capacity levels b cs = leaf b cs := by
  cases levels with
  | zero => rfl
  | succ levels => rw [grow, if_pos h]

theorem grow_of_lt (h : capacity < cs.length) : grow capacity (levels + 1) b cs =
    node b (grow capacity levels b.southWest (touching b.southWest cs))
      (grow capacity levels b.southEast (touching b.southEast cs))
      (grow capacity levels b.northWest (touching b.northWest cs))
      (grow capacity levels b.northEast (touching b.northEast cs)) := by
  rw [grow, if_neg (by omega)]

theorem box_grow : (grow capacity levels b cs).box = b := by
  cases levels with
  | zero => rfl
  | succ levels =>
    rw [grow]
    split <;> rfl

/-- Grown trees are leaves, or have split into the trees that are grown over the quarters. -/
@[elab_as_elim]
theorem grow_ind (capacity : Nat) {motive : Nat → Box → List Corridor → Prop}
    (leaf : ∀ levels b cs, levels = 0 ∨ cs.length ≤ capacity →
      grow capacity levels b cs = leaf b cs → motive levels b cs)
    (split : ∀ levels b cs, capacity < cs.length →
      (∀ q, motive levels q (touching q cs)) → motive (levels + 1) b cs)
    (levels : Nat) (b : Box) (cs : List Corridor) : motive levels b cs := by
  induction levels generalizing b cs with
  | zero => exact leaf 0 b cs (.inl rfl) rfl
  | succ levels ih =>
    rcases Nat.lt_or_ge capacity cs.length with hfull | hroom
    · exact split levels b cs hfull fun q => ih q _
    · exact leaf (levels + 1) b cs (.inr hroom) (grow_of_le hroom)

/-- What does not touch the box of a tree is not stored. -/
theorem insertWithin_of_not_meets {t : QuadTree} (h : ¬ t.box.meets c.box = true) :
    t.insertWithin capacity levels c = (t, false) := by
  cases t with
  | leaf b cs => exact if_neg h
  | node b sw se nw ne => exact if_neg h

theorem insertWithin_leaf (h : b.meets c.box = true) :
    (leaf b cs).insertWithin capacity levels c = (grow capacity levels b (cs ++ [c]), true) := by
  rw [insertWithin, if_pos h]

theorem insertWithin_node {sw se nw ne : QuadTree} (h : b.meets c.box = true) :
    ((node b sw se nw ne).insertWithin capacity (levels + 1) c).1 =
      node b (sw.insertWithin capacity levels c).1 (se.insertWithin capacity levels c).1
        (nw.insertWithin capacity levels c).1 (ne.insertWithin capacity levels c).1 := by
  rw [insertWithin, if_pos h, Nat.add_sub_cancel]

/-- **Insertion is growth**: a corridor that is added later might as well have been there when the
tree was grown. -/
theorem insertWithin_grow : ((grow capacity levels b cs).insertWithin capacity levels c).1 =
    grow capacity levels b (cs ++ touching b [c]) := by
  induction levels, b, cs using grow_ind capacity with
  | leaf levels b cs _ hgrow =>
    by_cases hmeets : b.meets c.box = true
    · rw [hgrow, touching_of_meets hmeets]
      exact congrArg Prod.fst (insertWithin_leaf hmeets)
    · rw [touching_of_not_meets hmeets, List.append_nil, insertWithin_of_not_meets]
      rw [box_grow]
      exact hmeets
  | split levels b cs hfull ih =>
    by_cases hmeets : b.meets c.box = true
    · have hfull' : capacity < (cs ++ [c]).length := by
        rw [List.length_append]
        omega
      -- the leaf has split before, so the corridor goes down to the quarters
      rw [touching_of_meets hmeets, grow_of_lt hfull, grow_of_lt hfull', insertWithin_node hmeets]
      simp only [ih, touching_append]
    · rw [touching_of_not_meets hmeets, List.append_nil, insertWithin_of_not_meets]
      rw [box_grow]
      exact hmeets

/-- A tree that is grown, then filled one corridor after the other, is grown from all of them. So a
leaf that splits may hand down what it holds one by one or all at once. -/
theorem foldl_insertWithin_grow (cs ds : List Corridor) :
    ds.foldl (fun t c => (t.insertWithin capacity levels c).1) (grow capacity levels b cs) =
      grow capacity levels b (cs ++ touching b ds) := by
  induction ds generalizing cs with
  | nil => rw [List.foldl_nil, touching, List.filter_nil, List.append_nil]
  | cons d ds ih =>
    rw [List.foldl_cons, insertWithin_grow, ih, List.append_assoc, ← touching_append,
      List.singleton_append]

theorem empty_eq_grow : empty b = grow capacity levels b [] :=
  (grow_of_le (Nat.zero_le capacity)).symm

end QuadTree

namespace Geofence

open QuadTree

variable {l : Limits} {g : Geofence}

/-- The corridors of the segments on the globe. -/
def corridors (segments : List Segment) (buffer : Float) : List Corridor :=
  (segments.filter (·.onGlobe)).map (·.corridor buffer)

theorem add_onGlobe {s : Segment} (hs : s.onGlobe = true) : g.add l s =
    { g with
      tree := (g.tree.insert l (s.corridor g.buffer)).1
      size := if (g.tree.insert l (s.corridor g.buffer)).2 then g.size + 1 else g.size } := by
  rw [add, hs]
  rfl

/-- Segments off the globe are left out. -/
theorem add_off {s : Segment} (hs : ¬ s.onGlobe = true) : g.add l s = g := by
  rw [add, Bool.eq_false_iff.mpr hs]
  rfl

/-- Adding segments inserts their corridors, and leaves those off the globe out. -/
theorem tree_foldl_add (segments : List Segment) :
    (segments.foldl (add l) g).tree =
      (corridors segments g.buffer).foldl (fun t c => (t.insert l c).1) g.tree := by
  induction segments generalizing g with
  | nil => rfl
  | cons s segments ih =>
    rw [List.foldl_cons, ih]
    by_cases hglobe : s.onGlobe = true
    · rw [add_onGlobe hglobe, corridors, corridors, List.filter_cons_of_pos hglobe, List.map_cons,
        List.foldl_cons]
    · rw [add_off hglobe, corridors, corridors, List.filter_cons_of_neg hglobe]

/-- **The tree of a geofence** is grown from the corridors that touch its bounds, whatever the order
of splits. -/
theorem ofSegments_grown {bounds : Box} {buffer : Float} (segments : List Segment) (l : Limits)
    (hbounds : bounds.isProper = true) (hbuffer : isBuffer buffer = true) :
    ∃ g, ofSegments bounds segments buffer l = .ok g ∧ g.tree =
      grow l.leafCapacity l.maxDepth bounds (touching bounds (corridors segments buffer)) := by
  refine ⟨segments.foldl (add l) ⟨.empty bounds, buffer, 0⟩, ?_, ?_⟩
  · rw [ofSegments, hbounds, hbuffer]
    rfl
  · have hempty : QuadTree.empty bounds = grow l.leafCapacity l.maxDepth bounds [] :=
      empty_eq_grow
    rw [tree_foldl_add, hempty]
    exact foldl_insertWithin_grow [] _

end Geofence

end VehiclePrivacy
