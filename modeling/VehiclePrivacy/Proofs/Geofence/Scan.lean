import VehiclePrivacy.Proofs.Geo.Padding
import VehiclePrivacy.Proofs.Geofence.Growth

/-!
# What a geofence answers

The index is there for speed only: a lookup answers what a scan over all segments in their order
would answer (`ofSegments_scan`). It goes down one path, to the first quarter with the position in
it. The leaf there holds fewer corridors than were added, but what it lacks does not touch its box,
so it does not contain the position either (`find?_touching`).
-/

namespace VehiclePrivacy

namespace QuadTree

variable {capacity levels : Nat} {b : Box} {p : Point} {cs : List Corridor}

/-- Where a position is looked up, only the corridors that touch the box matter. -/
theorem find?_touching (h : b.contains p = true) :
    (touching b cs).find? (·.contains p) = cs.find? (·.contains p) := by
  rw [touching, List.find?_filter]
  congr 1
  funext c
  cases hc : c.contains p with
  | false => simp
  | true => simp [Box.meets_of_contains h hc]

/-- The lookup goes on in a quarter with the position in it. -/
theorem corridorsAt_quarter (levels : Nat) (hfull : capacity < cs.length)
    (hb : b.isProper = true) (hp : b.contains p = true) : ∃ q ∈ b.quarters, q.contains p = true ∧
      (grow capacity (levels + 1) b cs).corridorsAt p =
        (grow capacity levels q (touching q cs)).corridorsAt p := by
  rw [grow_of_lt hfull, corridorsAt, hp, box_grow, box_grow, box_grow, box_grow]
  -- the quarters are tried in order, and one of them has the position in it
  by_cases hsw : b.southWest.contains p = true
  · exact ⟨b.southWest, by simp [Box.quarters], hsw, by simp [hsw]⟩
  by_cases hse : b.southEast.contains p = true
  · exact ⟨b.southEast, by simp [Box.quarters], hse, by simp [hsw, hse]⟩
  by_cases hnw : b.northWest.contains p = true
  · exact ⟨b.northWest, by simp [Box.quarters], hnw, by simp [hsw, hse, hnw]⟩
  by_cases hne : b.northEast.contains p = true
  · exact ⟨b.northEast, by simp [Box.quarters], hne, by simp [hsw, hse, hnw, hne]⟩
  obtain ⟨q, hq, hqp⟩ := Box.exists_quarter hb hp
  simp only [Box.quarters, List.mem_cons, List.not_mem_nil, or_false] at hq
  rcases hq with rfl | rfl | rfl | rfl
  · exact absurd hqp hsw
  · exact absurd hqp hse
  · exact absurd hqp hnw
  · exact absurd hqp hne

/-- **Lookup in a grown tree** finds the first of all corridors with the position in it. -/
theorem find?_grow (hb : b.isProper = true) (hp : b.contains p = true) :
    (grow capacity levels b cs).find? p = cs.find? (·.contains p) := by
  induction levels, b, cs using grow_ind capacity with
  | leaf levels b cs _ hgrow => rw [hgrow, find?, corridorsAt, if_pos hp]
  | split levels b cs hfull ih =>
    obtain ⟨q, hq, hqp, hcorridors⟩ := corridorsAt_quarter levels hfull hb hp
    have hquarter : (grow capacity levels q (touching q cs)).find? p =
        (touching q cs).find? (·.contains p) := ih q (Box.isProper_of_mem_quarters hb q hq) hqp
    -- what the quarter lacks does not touch it, so it does not contain the position
    rw [find?, hcorridors, ← find?, hquarter, find?_touching hqp]

/-- Outside its box, a tree finds nothing. -/
theorem find?_outside {t : QuadTree} (h : ¬ t.box.contains p = true) : t.find? p = none := by
  have hnone : t.corridorsAt p = [] := by
    cases t with
    | leaf b cs => exact if_neg h
    | node b sw se nw ne =>
      have hb : b.contains p = false := Bool.eq_false_iff.mpr h
      rw [corridorsAt, hb]
      rfl
  rw [find?, hnone, List.find?_nil]

end QuadTree

namespace Geofence

open QuadTree

variable {bounds : Box} {buffer : Float} {segments : List Segment} {l : Limits} {g : Geofence}

/-- What a scan over the segments in their order answers: the first one on the globe whose corridor
contains the position, unless that is out of bounds. -/
def scan (bounds : Box) (segments : List Segment) (buffer : Float) (p : Point) : Option Nat :=
  if bounds.contains p then
    (segments.find? fun s => s.onGlobe && (s.corridor buffer).contains p).map (·.id)
  else none

theorem find?_corridors (segments : List Segment) (buffer : Float) (p : Point) :
    ((corridors segments buffer).find? (·.contains p)).map (·.segment) =
      (segments.find? fun s => s.onGlobe && (s.corridor buffer).contains p).map (·.id) := by
  rw [corridors, List.find?_map, List.find?_filter, Option.map_map]
  simp only [Bool.decide_and, Bool.decide_eq_true]
  rfl

/-- The lookup in a grown tree answers as the scan. -/
theorem segmentAt?_of_grown (hbounds : bounds.isProper = true)
    (hg : g.tree =
      grow l.leafCapacity l.maxDepth bounds (touching bounds (corridors segments buffer)))
    (p : Point) : g.segmentAt? p = scan bounds segments buffer p := by
  by_cases hp : bounds.contains p = true
  · rw [segmentAt?, hg, find?_grow hbounds hp, find?_touching hp, scan, if_pos hp]
    exact find?_corridors segments buffer p
  · have houtside : g.tree.find? p = none := by
      refine find?_outside ?_
      rw [hg, box_grow]
      exact hp
    rw [segmentAt?, houtside, scan, if_neg hp, Option.map_none]

/-- Within proper bounds, every position is on the globe, so the check for that changes nothing. -/
theorem covers_of_grown (hbounds : bounds.isProper = true)
    (hg : g.tree =
      grow l.leafCapacity l.maxDepth bounds (touching bounds (corridors segments buffer)))
    (p : Point) : g.covers p = (g.segmentAt? p).isSome := by
  rw [covers, segmentAt?, Option.isSome_map]
  by_cases hp : bounds.contains p = true
  · rw [Box.onGlobe_of_contains hbounds hp, Bool.true_and]
  · have houtside : g.tree.find? p = none := by
      refine find?_outside ?_
      rw [hg, box_grow]
      exact hp
    rw [houtside, Option.isSome_none, Bool.and_false]

/-- Whether a scan finds anything does not depend on the order of the segments. -/
theorem isSome_scan_perm {segments' : List Segment} (h : segments'.Perm segments) (p : Point) :
    (scan bounds segments' buffer p).isSome = (scan bounds segments buffer p).isSome := by
  rw [scan, scan]
  split
  · rw [Option.isSome_map, Option.isSome_map, Bool.eq_iff_iff, List.find?_isSome,
      List.find?_isSome]
    simp only [h.mem_iff]
  · rfl

/-- **A geofence answers as a scan.** For proper bounds and a buffer, there is a geofence whatever
the segments and the limits of the tree are. It finds the segment that a scan finds, covers a
position when it finds a segment there, and covers the same positions as any geofence of the same
segments in another order and with other limits. -/
theorem ofSegments_scan (hbounds : bounds.isProper = true) (hbuffer : isBuffer buffer = true)
    (segments : List Segment) (l : Limits) :
    ∃ g, ofSegments bounds segments buffer l = .ok g ∧
      (∀ p, g.segmentAt? p = scan bounds segments buffer p) ∧
      (∀ p, g.covers p = (g.segmentAt? p).isSome) ∧
      ∀ (segments' : List Segment) (l' : Limits), segments'.Perm segments →
        ∃ g', ofSegments bounds segments' buffer l' = .ok g' ∧ ∀ p, g'.covers p = g.covers p := by
  obtain ⟨g, hg, htree⟩ := ofSegments_grown segments l hbounds hbuffer
  refine ⟨g, hg, segmentAt?_of_grown hbounds htree, covers_of_grown hbounds htree, ?_⟩
  intro segments' l' hperm
  obtain ⟨g', hg', htree'⟩ := ofSegments_grown segments' l' hbounds hbuffer
  refine ⟨g', hg', fun p => ?_⟩
  rw [covers_of_grown hbounds htree', covers_of_grown hbounds htree,
    segmentAt?_of_grown hbounds htree', segmentAt?_of_grown hbounds htree, isSome_scan_perm hperm]

/-- Two diagonal roads that cross, in a tree that splits for every corridor, and in the other order
in a tree that does not split. -/
theorem ofSegments_scan_of_globe :
    let road : Segment := ⟨7, ⟨35, -84⟩, ⟨36, -83⟩, none⟩
    let crossing : Segment := ⟨8, ⟨36, -84⟩, ⟨35, -83⟩, none⟩
    let middle : Point := ⟨35.5, -83.5⟩
    let north : Point := ⟨50, -83.5⟩
    Box.globe.isProper = true ∧ isBuffer 10 = true ∧
      ∃ g g', ofSegments Box.globe [road, crossing] 10 ⟨0, 3⟩ = .ok g ∧
        ofSegments Box.globe [crossing, road] 10 {} = .ok g' ∧
        (g.segmentAt? middle = some 7 ∧ g.covers middle = true ∧ g'.covers middle = true) ∧
        g.segmentAt? north = none ∧ g.covers north = false ∧ g'.covers north = false := by
  intro road crossing middle north
  have hbounds : Box.globe.isProper = true := by decide +kernel
  have hbuffer : isBuffer 10 = true := by decide +kernel
  obtain ⟨g, hg, hat, hcovers, hperm⟩ :=
    ofSegments_scan hbounds hbuffer [road, crossing] ⟨0, 3⟩
  obtain ⟨g', hg', hsame⟩ := hperm [crossing, road] {} (.swap road crossing [])
  -- the cosine stays open: the middle is between the ends, and the north is told by its latitude
  have hroad : road.onGlobe = true := by decide +kernel
  have hbetween : (Box.spanning road.a road.b).contains middle = true := by decide +kernel
  have hin : (road.corridor 10).contains middle = true :=
    (road.inside_corridor hroad hbuffer).contains hbetween
  have hmiddle : g.segmentAt? middle = some 7 := by
    have hglobe : Box.globe.contains middle = true := by decide +kernel
    rw [hat, scan, if_pos hglobe, List.find?_cons_of_pos (by rw [hroad, hin]; rfl)]
    rfl
  have hnorth : g.segmentAt? north = none := by
    rw [hat]
    decide +kernel
  refine ⟨hbounds, hbuffer, g, g', hg, hg', ⟨hmiddle, ?_, ?_⟩, hnorth, ?_, ?_⟩
  · rw [hcovers, hmiddle]
    rfl
  · rw [hsame, hcovers, hmiddle]
    rfl
  · rw [hcovers, hnorth]
    rfl
  · rw [hsame, hcovers, hnorth]
    rfl

end Geofence

end VehiclePrivacy
