import VehiclePrivacy.Geofence.Index
import VehiclePrivacy.Proofs.Binary64.Monotone
import VehiclePrivacy.Proofs.Geo.Quarters

/-!
# Boxes with a padding

A buffer distance is turned into degrees by two divisions, and the degrees are taken off the
south-western corner and added to the north-eastern one. Every step rounds, but none turns the order
around: with a greater distance each corner is moved at least as far, and never inwards
(`inside_pad`).

Nothing is asked of the cosine itself. It is the same one for both distances, and what is used of it
is bounded below, so that no division is by less than one (`one_le_degree`).
-/

namespace VehiclePrivacy

open Binary64

namespace Box

variable {a b : Float} {p q : Point} {c d : Box}

/-! ## The smaller and the larger number -/

theorem le_lesser {x : Float} (ha : x ≤ a) (hb : x ≤ b) : x ≤ lesser a b := by
  rw [lesser]
  split
  · exact hb
  · exact ha

theorem greater_le {x : Float} (ha : a ≤ x) (hb : b ≤ x) : greater a b ≤ x := by
  rw [greater]
  split
  · exact hb
  · exact ha

theorem le_greater_left (ha : (value? a).isSome = true) : a ≤ greater a b := by
  have hnan : a.isNaN = false := by simpa [isSome_value?_iff] using ha
  rw [greater, hnan, Bool.or_false]
  split
  · rename_i hlt
    exact doubles_le_of_lt (of_decide_eq_true hlt)
  · exact le_refl_of_isSome ha

/-- The other number may be NaN. -/
theorem le_greater_right (hb : (value? b).isSome = true) : b ≤ greater a b := by
  rw [greater]
  split
  · exact le_refl_of_isSome hb
  · rename_i h
    simp only [Bool.or_eq_true, decide_eq_true_eq, not_or, Bool.not_eq_true] at h
    obtain ⟨hlt, hnan⟩ := h
    exact doubles_le_of_not_lt (by rw [isSome_value?_iff, hnan]; rfl) hb hlt

theorem lesser_le_left (ha : (value? a).isSome = true) : lesser a b ≤ a := by
  have hnan : a.isNaN = false := by simpa [isSome_value?_iff] using ha
  rw [lesser, hnan, Bool.or_false]
  split
  · rename_i hlt
    exact doubles_le_of_lt (of_decide_eq_true hlt)
  · exact le_refl_of_isSome ha

theorem lesser_le_right (hb : (value? b).isSome = true) : lesser a b ≤ b := by
  rw [lesser]
  split
  · exact le_refl_of_isSome hb
  · rename_i h
    simp only [Bool.or_eq_true, decide_eq_true_eq, not_or, Bool.not_eq_true] at h
    obtain ⟨hlt, hnan⟩ := h
    exact doubles_le_of_not_lt hb (by rw [isSome_value?_iff, hnan]; rfl) hlt

/-! ## The box that spans two positions -/

theorem numbers_of_onGlobe (h : p.onGlobe = true) :
    (∃ lat, value? p.lat = some (.number lat)) ∧ ∃ lon, value? p.lon = some (.number lon) := by
  simp only [Point.onGlobe, Bool.and_eq_true] at h
  exact ⟨number_of_isFinite h.1.1.1.1.1, number_of_isFinite h.1.1.1.1.2⟩

/-- The box that spans two positions on the globe has both in it. -/
theorem contains_spanning (hp : p.onGlobe = true) (hq : q.onGlobe = true) :
    (spanning p q).contains p = true ∧ (spanning p q).contains q = true := by
  obtain ⟨⟨_, hplat⟩, _, hplon⟩ := numbers_of_onGlobe hp
  obtain ⟨⟨_, hqlat⟩, _, hqlon⟩ := numbers_of_onGlobe hq
  refine ⟨contains_iff.mpr ⟨⟨?_, ?_⟩, ?_, ?_⟩, contains_iff.mpr ⟨⟨?_, ?_⟩, ?_, ?_⟩⟩
  · exact lesser_le_left (Option.isSome_of_eq_some hplat)
  · exact le_greater_left (Option.isSome_of_eq_some hplat)
  · exact lesser_le_left (Option.isSome_of_eq_some hplon)
  · exact le_greater_left (Option.isSome_of_eq_some hplon)
  · exact lesser_le_right (Option.isSome_of_eq_some hqlat)
  · exact le_greater_right (Option.isSome_of_eq_some hqlat)
  · exact lesser_le_right (Option.isSome_of_eq_some hqlon)
  · exact le_greater_right (Option.isSome_of_eq_some hqlon)

/-- It is a proper box: its edges are those of the positions. -/
theorem isProper_spanning (hp : p.onGlobe = true) (hq : q.onGlobe = true) :
    (spanning p q).isProper = true := by
  obtain ⟨⟨hs, hn⟩, hw, he⟩ := contains_iff.mp (contains_spanning hp hq).1
  obtain ⟨⟨hps, hpn⟩, hpw, hpe⟩ := Point.onGlobe_iff.mp hp
  obtain ⟨⟨hqs, hqn⟩, hqw, hqe⟩ := Point.onGlobe_iff.mp hq
  refine isProper_iff.mpr ⟨⟨?_, doubles_le_trans hs hn, ?_⟩, ⟨?_, doubles_le_trans hw he, ?_⟩⟩
  · exact le_lesser hps hqs
  · exact greater_le hpn hqn
  · exact le_lesser hpw hqw
  · exact greater_le hpe hqe

/-! ## One box inside another -/

/-- The edges of `c` lie between those of `d`; they may coincide. -/
structure Inside (c d : Box) : Prop where
  south : d.sw.lat ≤ c.sw.lat
  west : d.sw.lon ≤ c.sw.lon
  north : c.ne.lat ≤ d.ne.lat
  east : c.ne.lon ≤ d.ne.lon

theorem Inside.contains (h : c.Inside d) (hp : c.contains p = true) : d.contains p = true := by
  obtain ⟨⟨hs, hn⟩, hw, he⟩ := contains_iff.mp hp
  exact contains_iff.mpr ⟨⟨doubles_le_trans h.south hs, doubles_le_trans hn h.north⟩,
    doubles_le_trans h.west hw, doubles_le_trans he h.east⟩

theorem Inside.upright (h : c.Inside d) (hc : c.Upright) : d.Upright where
  lat := doubles_le_trans h.south (doubles_le_trans hc.lat h.north)
  lon := doubles_le_trans h.west (doubles_le_trans hc.lon h.east)

theorem upright_of_isProper (h : c.isProper = true) : c.Upright := by
  obtain ⟨hlat, hlon⟩ := isProper_iff.mp h
  exact ⟨hlat.order, hlon.order⟩

/-! ## Padding -/

/-- A buffer distance is a number, and not negative. -/
theorem number_of_isBuffer {m : Float} (h : Geofence.isBuffer m = true) :
    ∃ x, value? m = some (.number x) ∧ 0 ≤ x := by
  simp only [Geofence.isBuffer, Bool.and_eq_true, Bool.not_eq_true', decide_eq_false_iff_not] at h
  obtain ⟨hfinite, hsign⟩ := h
  obtain ⟨x, hx⟩ := number_of_isFinite hfinite
  refine ⟨x, hx, ?_⟩
  by_contra hneg
  exact hsign (lt_iff.mpr ⟨_, _, hx, value?_zero, number_lt.mpr (not_le.mp hneg)⟩)

theorem one_le_metersPerDegree : 1 ≤ metersPerDegree := by decide +kernel

/-- The length of a degree of longitude is never below one meter, whatever the cosine is. -/
theorem one_le_degree (lat : Float) : 1 ≤ metersPerDegree * shrinkage lat := by
  have hleast : 1 ≤ metersPerDegree * leastCosine := by decide +kernel
  obtain ⟨x, hx⟩ := number_of_isFinite (a := metersPerDegree) (by decide +kernel)
  obtain ⟨y, hy⟩ := number_of_isFinite (a := leastCosine) (by decide +kernel)
  have hpos : 1 ≤ x := (numbers_le_iff value?_one hx).mp one_le_metersPerDegree
  have hclamp : leastCosine ≤ shrinkage lat := le_greater_right (Option.isSome_of_eq_some hy)
  exact doubles_le_trans hleast (mul_le_mul_of_pos hx (one_pos.trans_le hpos) hy hclamp)

/-- **Padding keeps the order of distances**: the box is inside the padded one, and the one with the
smaller padding inside the one with the greater. -/
theorem inside_pad {narrow wide : Float} (hc : c.isProper = true)
    (hnarrow : Geofence.isBuffer narrow = true) (hwide : Geofence.isBuffer wide = true)
    (h : narrow ≤ wide) : c.Inside (c.pad narrow) ∧ (c.pad narrow).Inside (c.pad wide) := by
  obtain ⟨x, hx, hpos⟩ := number_of_isBuffer hnarrow
  obtain ⟨y, hy, -⟩ := number_of_isBuffer hwide
  have hxy : x ≤ y := (numbers_le_iff hx hy).mp h
  simp only [isProper, Bool.and_eq_true] at hc
  obtain ⟨⟨_, hs⟩, _, hw⟩ := numbers_of_onGlobe hc.1.1.1
  obtain ⟨⟨_, hn⟩, _, he⟩ := numbers_of_onGlobe hc.1.1.2
  -- the paddings in degrees are in the order of the distances
  obtain ⟨_, _, hlat, hlat', hlatpos, hlatle⟩ :=
    div_numbers hx hy hpos hxy one_le_metersPerDegree
  obtain ⟨_, _, hlon, hlon', hlonpos, hlonle⟩ := div_numbers hx hy hpos hxy
    (one_le_degree (lesser (greater c.sw.lat.abs c.ne.lat.abs) 90))
  obtain ⟨⟨hs', hs⟩, -⟩ := moved_le hs hlat hlat' hlatpos hlatle
  obtain ⟨⟨hw', hw⟩, -⟩ := moved_le hw hlon hlon' hlonpos hlonle
  obtain ⟨-, hn, hn'⟩ := moved_le hn hlat hlat' hlatpos hlatle
  obtain ⟨-, he, he'⟩ := moved_le he hlon hlon' hlonpos hlonle
  exact ⟨⟨hs, hw, hn, he⟩, ⟨hs', hw', hn', he'⟩⟩

end Box

/-- What a corridor has in it: the ends of its segment, and the box that spans them. -/
theorem Segment.corridor_padding {s : Segment} {narrow wide : Float} (hs : s.onGlobe = true)
    (hnarrow : Geofence.isBuffer narrow = true) (hwide : Geofence.isBuffer wide = true)
    (h : narrow ≤ wide) :
    (s.corridor narrow).contains s.a = true ∧ (s.corridor narrow).contains s.b = true ∧
      (Box.spanning s.a s.b).Inside (s.corridor narrow).box ∧
      (s.corridor narrow).box.Inside (s.corridor wide).box := by
  obtain ⟨ha, hb⟩ := Bool.and_eq_true_iff.mp hs
  obtain ⟨hspan, hwider⟩ :=
    Box.inside_pad (Box.isProper_spanning ha hb) hnarrow hwide h
  obtain ⟨hina, hinb⟩ := Box.contains_spanning ha hb
  exact ⟨hspan.contains hina, hspan.contains hinb, hspan, hwider⟩

/-- A corridor has the box in it that its segment spans. -/
theorem Segment.inside_corridor {s : Segment} {buffer : Float} (hs : s.onGlobe = true)
    (hbuffer : Geofence.isBuffer buffer = true) :
    (Box.spanning s.a s.b).Inside (s.corridor buffer).box := by
  obtain ⟨x, hx, -⟩ := Box.number_of_isBuffer hbuffer
  have hsame : buffer ≤ buffer := le_refl_of_isSome (Option.isSome_of_eq_some hx)
  exact (s.corridor_padding hs hbuffer hbuffer hsame).2.2.1

/-- Corridors have their corners in the right order. -/
theorem Segment.upright_corridor {s : Segment} {buffer : Float} (hs : s.onGlobe = true)
    (hbuffer : Geofence.isBuffer buffer = true) : (s.corridor buffer).box.Upright := by
  obtain ⟨ha, hb⟩ := Bool.and_eq_true_iff.mp hs
  have hspanning := Box.isProper_spanning ha hb
  exact (s.inside_corridor hs hbuffer).upright (Box.upright_of_isProper hspanning)

end VehiclePrivacy
