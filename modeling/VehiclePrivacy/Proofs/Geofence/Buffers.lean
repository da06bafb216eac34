import VehiclePrivacy.Proofs.Geo.Padding
import VehiclePrivacy.Proofs.Geofence.Scan

/-!
# Greater buffers and more segments

A geofence with a greater buffer, or of more segments, covers what the first one covers. Its tree
may look quite different, since more corridors touch more boxes and leaves split elsewhere, but that
is of no account: what a geofence covers is told by its bounds and by the corridors one by one
(`covers_iff_of_grown`), and each corridor is inside the one with the greater buffer.
-/

namespace VehiclePrivacy

namespace Geofence

open Binary64 QuadTree

variable {bounds : Box} {buffer narrow wide : Float} {segments : List Segment} {l : Limits}
  {g : Geofence} {p : Point}

/-- What a geofence covers: the positions within its bounds that are in the corridor of a segment
on the globe. -/
theorem covers_iff_of_grown (hbounds : bounds.isProper = true)
    (hg : g.tree =
      grow l.leafCapacity l.maxDepth bounds (touching bounds (corridors segments buffer))) :
    g.covers p = true ↔ bounds.contains p = true ∧
      ∃ s ∈ segments, s.onGlobe = true ∧ (s.corridor buffer).contains p = true := by
  rw [covers_of_grown hbounds hg, segmentAt?_of_grown hbounds hg, scan]
  by_cases hp : bounds.contains p = true
  · rw [if_pos hp, Option.isSome_map, List.find?_isSome]
    simp only [hp, true_and, Bool.and_eq_true]
  · simp only [hp, Bool.false_eq_true, if_false, Option.isSome_none, false_and]

/--
**A greater buffer loses no position.** The corridor of a segment on the globe has both ends and the
box that spans them in it, and is inside the corridor with the greater buffer. So, within the same
bounds, a geofence with the greater buffer, of the same segments or of more, covers what the first
one covers, whatever the limits of the two trees are.
-/
theorem ofSegments_wider (hnarrow : isBuffer narrow = true) (hwide : isBuffer wide = true)
    (h : narrow ≤ wide) :
    (∀ s : Segment, s.onGlobe = true →
      (s.corridor narrow).contains s.a = true ∧ (s.corridor narrow).contains s.b = true ∧
        (Box.spanning s.a s.b).Inside (s.corridor narrow).box ∧
        (s.corridor narrow).box.Inside (s.corridor wide).box) ∧
    ∀ bounds : Box, bounds.isProper = true →
      ∀ (segments more : List Segment) (l l' : Limits), segments ⊆ more →
        ∃ g g', ofSegments bounds segments narrow l = .ok g ∧
          ofSegments bounds more wide l' = .ok g' ∧
          ∀ p, g.covers p = true → g'.covers p = true := by
  refine ⟨fun s hs => s.corridor_padding hs hnarrow hwide h, ?_⟩
  intro bounds hbounds segments more l l' hmore
  obtain ⟨g, hg, htree⟩ := ofSegments_grown segments l hbounds hnarrow
  obtain ⟨g', hg', htree'⟩ := ofSegments_grown more l' hbounds hwide
  refine ⟨g, g', hg, hg', fun p hp => ?_⟩
  obtain ⟨hin, s, hs, hglobe, hcorridor⟩ := (covers_iff_of_grown hbounds htree).mp hp
  obtain ⟨-, -, -, hwider⟩ := s.corridor_padding hglobe hnarrow hwide h
  exact (covers_iff_of_grown hbounds htree').mpr
    ⟨hin, s, hmore hs, hglobe, hwider.contains hcorridor⟩

/-- No buffer at all for one road, and ten meters for two. Halfway between the ends of the first road
is covered by both, and some meters south of it is only in the wider corridor. -/
theorem ofSegments_wider_of_ten :
    let road : Segment := ⟨7, ⟨35, -84⟩, ⟨36, -83⟩, none⟩
    let other : Segment := ⟨8, ⟨40, 10⟩, ⟨41, 10⟩, none⟩
    let middle : Point := ⟨35.5, -83.5⟩
    let south : Point := ⟨34.99995, -83.5⟩
    isBuffer 0 = true ∧ isBuffer 10 = true ∧ (0 : Float) ≤ 10 ∧ road.onGlobe = true ∧
      ((road.corridor 0).contains road.a = true ∧ (road.corridor 0).contains road.b = true ∧
        (road.corridor 0).box.Inside (road.corridor 10).box) ∧
      ((road.corridor 0).contains south = false ∧ (road.corridor 10).contains south = true) ∧
      Box.globe.isProper = true ∧
        ∃ g g', ofSegments Box.globe [road] 0 {} = .ok g ∧
          ofSegments Box.globe [other, road] 10 ⟨0, 3⟩ = .ok g' ∧
          g.covers middle = true ∧ g'.covers middle = true := by
  intro road other middle south
  have hnone : isBuffer 0 = true := by decide +kernel
  have hten : isBuffer 10 = true := by decide +kernel
  have hle : (0 : Float) ≤ 10 := by decide +kernel
  have hroad : road.onGlobe = true := by decide +kernel
  have hglobe : Box.globe.isProper = true := by decide +kernel
  obtain ⟨hcorridor, hcovers⟩ := ofSegments_wider hnone hten hle
  obtain ⟨ha, hb, hspan, hinside⟩ := hcorridor road hroad
  -- between the ends in longitude, where nothing has to be known about the cosine
  have hsouth : (road.corridor 10).contains south = true := by
    have hwest : (Box.spanning road.a road.b).sw.lon ≤ south.lon := by decide +kernel
    have heast : south.lon ≤ (Box.spanning road.a road.b).ne.lon := by decide +kernel
    have hwide := road.inside_corridor hroad hten
    exact Box.contains_iff.mpr ⟨⟨by decide +kernel, by decide +kernel⟩,
      doubles_le_trans hwide.west hwest, doubles_le_trans heast hwide.east⟩
  have hapart : (road.corridor 0).contains south = false := by decide +kernel
  obtain ⟨g, g', hg, hg', hmore⟩ :=
    hcovers Box.globe hglobe [road] [other, road] {} ⟨0, 3⟩ (List.subset_cons_self other [road])
  have hmiddle : g.covers middle = true := by
    obtain ⟨g₀, hg₀, htree⟩ := ofSegments_grown [road] {} hglobe hnone
    obtain rfl : g₀ = g := Except.ok.inj (hg₀.symm.trans hg)
    exact (covers_iff_of_grown hglobe htree).mpr ⟨by decide +kernel, road,
      List.mem_singleton.mpr rfl, hroad, hspan.contains (by decide +kernel)⟩
  exact ⟨hnone, hten, hle, hroad, ⟨ha, hb, hinside⟩, ⟨hapart, hsouth⟩, hglobe, g, g', hg, hg',
    hmiddle, hmore middle hmiddle⟩

end Geofence

end VehiclePrivacy
