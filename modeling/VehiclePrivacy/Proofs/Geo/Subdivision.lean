import VehiclePrivacy.Proofs.Geo.Padding

/-!
# Subdividing a box

Quartering loses nothing of a proper box and adds nothing to it (`tiles_quarters`). The quarters are
proper boxes themselves, so the same is true of the quarters of the quarters, and on any level below
(`tiles_subdivision`).

Nothing is asked of the size of the box. Where no double lies between two edges, or both edges are
the same, the double halfway is one of them, and some quarters are lines or positions. They are
boxes like any other.
-/

namespace VehiclePrivacy

open Binary64

namespace Box

variable {b c d : Box} {qs : List Box}

/-! ## Inside and touching -/

theorem Inside.refl (h : c.Upright) : c.Inside c where
  south := (doubles_le_self h.lat).1
  west := (doubles_le_self h.lon).1
  north := (doubles_le_self h.lat).2
  east := (doubles_le_self h.lon).2

theorem Inside.trans (h : b.Inside c) (h' : c.Inside d) : b.Inside d where
  south := doubles_le_trans h'.south h.south
  west := doubles_le_trans h'.west h.west
  north := doubles_le_trans h.north h'.north
  east := doubles_le_trans h.east h'.east

/-- What touches a box touches every box that has it inside. -/
theorem Inside.meets (h : b.Inside c) (hm : b.meets d = true) : c.meets d = true := by
  obtain ⟨⟨hs, hn⟩, hw, he⟩ := meets_iff.mp hm
  exact meets_iff.mpr ⟨⟨doubles_le_trans h.south hs, doubles_le_trans hn h.north⟩,
    doubles_le_trans h.west hw, doubles_le_trans he h.east⟩

/-! ## Boxes made of boxes -/

/-- The boxes `qs` make up `b`. They may overlap at their edges. -/
structure Tiles (b : Box) (qs : List Box) : Prop where
  proper : ∀ q ∈ qs, q.isProper = true
  inside : ∀ q ∈ qs, q.Inside b
  /-- Together they have the same positions in them. -/
  positions : ∀ p, b.contains p = true ↔ ∃ q ∈ qs, q.contains p = true
  /-- What touches one of them touches the box, and the other way round. -/
  touching : ∀ c, c.Upright → (b.meets c = true ↔ ∃ q ∈ qs, q.meets c = true)

theorem tiles_self (h : b.isProper = true) : b.Tiles [b] where
  proper := by simpa using h
  inside := by simpa using Inside.refl (upright_of_isProper h)
  positions := by simp
  touching := by simp

/-- The quarters of a proper box are inside of it. -/
theorem inside_of_mem_quarters (h : b.isProper = true) : ∀ q ∈ b.quarters, q.Inside b := by
  obtain ⟨hlat, hlon⟩ := isProper_iff.mp h
  obtain ⟨hs, hn⟩ := hlat.midpoint degrees_lat
  obtain ⟨hw, he⟩ := hlon.midpoint degrees_lon
  -- a quarter has two edges of the box, and two halfway
  obtain ⟨south, west, north, east⟩ := Inside.refl (upright_of_isProper h)
  intro q hq
  simp only [quarters, List.mem_cons, List.not_mem_nil, or_false] at hq
  rcases hq with rfl | rfl | rfl | rfl
  · exact ⟨south, west, hn, he⟩
  · exact ⟨south, hw, hn, east⟩
  · exact ⟨hs, west, north, he⟩
  · exact ⟨hs, hw, north, east⟩

/-- **The quarters make up the box.** -/
theorem tiles_quarters (h : b.isProper = true) : b.Tiles b.quarters where
  proper := isProper_of_mem_quarters h
  inside := inside_of_mem_quarters h
  positions p := by
    refine ⟨exists_quarter h, ?_⟩
    rintro ⟨q, hq, hp⟩
    exact (inside_of_mem_quarters h q hq).contains hp
  touching c hc := by
    refine ⟨exists_quarter_meets h hc, ?_⟩
    rintro ⟨q, hq, hm⟩
    exact (inside_of_mem_quarters h q hq).meets hm

/-- Boxes that are made up of boxes in turn may be replaced by them. -/
theorem Tiles.flatMap {f : Box → List Box} (h : b.Tiles qs) (hf : ∀ q ∈ qs, q.Tiles (f q)) :
    b.Tiles (qs.flatMap f) where
  proper := by
    intro r hr
    obtain ⟨q, hq, hr⟩ := List.mem_flatMap.mp hr
    exact (hf q hq).proper r hr
  inside := by
    intro r hr
    obtain ⟨q, hq, hr⟩ := List.mem_flatMap.mp hr
    exact ((hf q hq).inside r hr).trans (h.inside q hq)
  positions p := by
    rw [h.positions]
    constructor
    · rintro ⟨q, hq, hp⟩
      obtain ⟨r, hr, hp⟩ := ((hf q hq).positions p).mp hp
      exact ⟨r, List.mem_flatMap.mpr ⟨q, hq, hr⟩, hp⟩
    · rintro ⟨r, hr, hp⟩
      obtain ⟨q, hq, hr⟩ := List.mem_flatMap.mp hr
      exact ⟨q, hq, ((hf q hq).positions p).mpr ⟨r, hr, hp⟩⟩
  touching c hc := by
    rw [h.touching c hc]
    constructor
    · rintro ⟨q, hq, hm⟩
      obtain ⟨r, hr, hm⟩ := ((hf q hq).touching c hc).mp hm
      exact ⟨r, List.mem_flatMap.mpr ⟨q, hq, hr⟩, hm⟩
    · rintro ⟨r, hr, hm⟩
      obtain ⟨q, hq, hr⟩ := List.mem_flatMap.mp hr
      exact ⟨q, hq, ((hf q hq).touching c hc).mpr ⟨r, hr, hm⟩⟩

/-! ## Quartering again and again -/

/-- The boxes that a box is quartered into on a level below it. -/
def subdivision (b : Box) : Nat → List Box
  | 0 => [b]
  | n + 1 => (b.subdivision n).flatMap quarters

/-- **The boxes of every level make up the box**: quartering keeps this. -/
theorem tiles_subdivision (h : b.isProper = true) (n : Nat) : b.Tiles (b.subdivision n) := by
  induction n with
  | zero => exact tiles_self h
  | succ n ih => exact ih.flatMap fun q hq => tiles_quarters (ih.proper q hq)

/--
**Quarters cover their box and stay inside of it.** For a proper box, the position halfway lies
between the corners in both coordinates. The corners of each quarter are in the right order, and the
quarter is inside the box. Every position in the box is in a quarter, and whatever touches the box
touches a quarter, and the other way round. All of this is true of the boxes of any further level.
-/
theorem quarters_make_up (h : b.isProper = true) :
    ((b.sw.lat ≤ b.midpoint.lat ∧ b.midpoint.lat ≤ b.ne.lat) ∧
      b.sw.lon ≤ b.midpoint.lon ∧ b.midpoint.lon ≤ b.ne.lon) ∧
    (∀ q ∈ b.quarters, q.Upright ∧ q.Inside b) ∧
    (∀ p, b.contains p = true → ∃ q ∈ b.quarters, q.contains p = true) ∧
    (∀ c, c.Upright → (b.meets c = true ↔ ∃ q ∈ b.quarters, q.meets c = true)) ∧
    ∀ n, b.Tiles (b.subdivision n) := by
  obtain ⟨hlat, hlon⟩ := isProper_iff.mp h
  have htiles := tiles_quarters h
  exact ⟨⟨hlat.midpoint degrees_lat, hlon.midpoint degrees_lon⟩,
    fun q hq => ⟨upright_of_isProper (htiles.proper q hq), htiles.inside q hq⟩,
    fun p => (htiles.positions p).mp, htiles.touching, tiles_subdivision h⟩

/-- A box of one longitude, between latitudes with no double between them. A northern quarter is the
northern end alone, and so the southern end is in the southern quarters only. -/
theorem quarters_make_up_of_line :
    let b : Box := ⟨⟨5e-324, 180⟩, ⟨1e-323, 180⟩⟩
    let south : Box := ⟨⟨0, 179⟩, b.sw⟩
    b.isProper = true ∧ b.midpoint = b.ne ∧
    ((b.sw.lat ≤ b.midpoint.lat ∧ b.midpoint.lat ≤ b.ne.lat) ∧
      b.sw.lon ≤ b.midpoint.lon ∧ b.midpoint.lon ≤ b.ne.lon) ∧
    (b.northEast = ⟨b.ne, b.ne⟩ ∧ b.northEast.Upright ∧ b.northEast.Inside b) ∧
    (b.quarters.filter (·.contains b.sw) = [b.southWest, b.southEast] ∧
      ∃ q ∈ b.quarters, q.contains b.sw = true) ∧
    (south.Upright ∧ b.meets south = true ∧ ∃ q ∈ b.quarters, q.meets south = true) ∧
    (∃ q ∈ b.subdivision 3, q.contains b.sw = true) ∧
    ¬ ∃ q ∈ b.subdivision 3, q.contains ⟨0, 180⟩ = true := by
  intro b south
  have hproper : b.isProper = true := by decide +kernel
  have hmidpoint : b.midpoint = b.ne := by decide +kernel
  have hsw : b.contains b.sw = true := by decide +kernel
  have hout : b.contains ⟨0, 180⟩ = false := by decide +kernel
  have hsouth : south.Upright := ⟨by decide +kernel, by decide +kernel⟩
  have hmeets : b.meets south = true := by decide +kernel
  obtain ⟨hbetween, hquarters, hpositions, htouching, htiles⟩ := quarters_make_up hproper
  obtain ⟨hupright, hinside⟩ := hquarters b.northEast (by simp [quarters])
  refine ⟨hproper, hmidpoint, hbetween, ⟨by rw [northEast, hmidpoint], hupright, hinside⟩,
    ⟨by decide +kernel, hpositions b.sw hsw⟩, ⟨hsouth, hmeets, (htouching south hsouth).mp hmeets⟩,
    ((htiles 3).positions b.sw).mp hsw, ?_⟩
  rw [← (htiles 3).positions, hout]
  exact Bool.false_ne_true

end Box

end VehiclePrivacy
