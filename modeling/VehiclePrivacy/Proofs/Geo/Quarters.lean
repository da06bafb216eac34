import VehiclePrivacy.Geo.Box
import VehiclePrivacy.Proofs.Binary64.Arithmetic

/-!
# The quarters of a box

A proper box is a stretch of latitudes and one of longitudes (`isProper_iff`), and its quarters are
made of the halves of both. That is all there is to show of the geometry: halves are stretches
again (`Stretch.halves`), since the double halfway lies between the ends however it is rounded, and
no number falls between the halves (`Stretch.meets_halves`).

From this a quarter of a proper box is proper (`isProper_of_mem_quarters`), and what touches the box
touches one of the quarters (`exists_quarter_meets`), so that every position in it is in one of them
(`exists_quarter`).
-/

namespace VehiclePrivacy

open Binary64

/-- Degrees reach from `-limit` to `limit`, which are numbers that can be doubled. -/
structure Degrees (limit : Float) (x : ℚ) : Prop where
  high : value? limit = some (.number x)
  low : value? (-limit) = some (.number (-x))
  small : |2 * x| < overflow

theorem three_sixty_lt_overflow : 360 < overflow := by
  have h : (2 : ℚ) ^ (9 : ℤ) ≤ overflow := two_zpow_le.mpr (by norm_num)
  refine lt_of_lt_of_le ?_ h
  norm_num

theorem degrees_of_unpack {limit : Float} {m : ℕ} {e : ℤ} {hm : 0 < m}
    (hhigh : limit.toModel.unpack = .finite .positive m e hm)
    (hlow : (-limit).toModel.unpack = .finite .negative m e hm) (hsmall : (m : ℚ) * 2 ^ e ≤ 180) :
    Degrees limit (m * 2 ^ e) := by
  refine ⟨congrArg unpackedValue? hhigh, congrArg unpackedValue? hlow, ?_⟩
  have hpos := finite_pos hm e
  rw [abs_of_pos (by linarith)]
  linarith [three_sixty_lt_overflow]

theorem degrees_lat : Degrees 90 (((90 * 2 ^ 46 : ℕ) : ℚ) * 2 ^ (-46 : ℤ)) := by
  have hhigh : (90 : Float).toModel.unpack =
      .finite .positive (90 * 2 ^ 46) (-46) (by norm_num) := by
    with_unfolding_all rfl
  have hlow : (-90 : Float).toModel.unpack =
      .finite .negative (90 * 2 ^ 46) (-46) (by norm_num) := by
    with_unfolding_all rfl
  exact degrees_of_unpack hhigh hlow (by norm_num)

theorem degrees_lon : Degrees 180 (((180 * 2 ^ 45 : ℕ) : ℚ) * 2 ^ (-45 : ℤ)) := by
  have hhigh : (180 : Float).toModel.unpack =
      .finite .positive (180 * 2 ^ 45) (-45) (by norm_num) := by
    with_unfolding_all rfl
  have hlow : (-180 : Float).toModel.unpack =
      .finite .negative (180 * 2 ^ 45) (-45) (by norm_num) := by
    with_unfolding_all rfl
  exact degrees_of_unpack hhigh hlow (by norm_num)

/-! ## Stretches -/

/-- The degrees from `lo` to `hi`, in this order and within the limit. -/
structure Stretch (limit lo hi : Float) : Prop where
  low : -limit ≤ lo
  order : lo ≤ hi
  high : hi ≤ limit

variable {limit lo hi a : Float} {x : ℚ}

theorem Stretch.number (h : Stretch limit lo hi) (hd : Degrees limit x) (ha : lo ≤ a)
    (ha' : a ≤ hi) : ∃ y, value? a = some (.number y) ∧ |2 * y| < overflow := by
  obtain ⟨y, hy, hlow, hhigh⟩ := number_of_between hd.low hd.high (doubles_le_trans h.low ha)
    (doubles_le_trans ha' h.high)
  have hy2 : |2 * y| ≤ |2 * x| := by
    rw [abs_mul, abs_mul]
    exact mul_le_mul_of_nonneg_left ((abs_le.mpr ⟨hlow, hhigh⟩).trans (le_abs_self x)) (abs_nonneg 2)
  exact ⟨y, hy, hy2.trans_lt hd.small⟩

theorem doubles_le_self {b : Float} (h : a ≤ b) : a ≤ a ∧ b ≤ b := by
  obtain ⟨x, y, hx, hy, -⟩ := le_iff.mp h
  exact ⟨le_iff.mpr ⟨x, x, hx, hx, le_rfl⟩, le_iff.mpr ⟨y, y, hy, hy, le_rfl⟩⟩

theorem Stretch.midpoint (h : Stretch limit lo hi) (hd : Degrees limit x) :
    lo ≤ (lo + hi) / 2 ∧ (lo + hi) / 2 ≤ hi := by
  obtain ⟨hlo, hhi⟩ := doubles_le_self h.order
  obtain ⟨y, hy, hy2⟩ := h.number hd hlo h.order
  obtain ⟨z, hz, hz2⟩ := h.number hd h.order hhi
  exact midpoint_mem hy hz h.order hy2 hz2

/-- Both halves of a stretch are stretches. -/
theorem Stretch.halves (h : Stretch limit lo hi) (hd : Degrees limit x) :
    Stretch limit lo ((lo + hi) / 2) ∧ Stretch limit ((lo + hi) / 2) hi := by
  obtain ⟨hlow, hhigh⟩ := h.midpoint hd
  exact ⟨⟨h.low, hlow, doubles_le_trans hhigh h.high⟩,
    ⟨doubles_le_trans h.low hlow, hhigh, h.high⟩⟩

/-- What reaches into a stretch reaches into one of its halves. -/
theorem Stretch.meets_halves {a' : Float} (h : Stretch limit lo hi) (hd : Degrees limit x)
    (hlo : lo ≤ a') (hhi : a ≤ hi) (ha : a ≤ a') :
    (lo ≤ a' ∧ a ≤ (lo + hi) / 2) ∨ ((lo + hi) / 2 ≤ a' ∧ a ≤ hi) := by
  rcases doubles_le_total (isSome_value?_of_le ha).1 (isSome_value?_of_le (h.midpoint hd).1).2 with
    hlower | hupper
  · exact .inl ⟨hlo, hlower⟩
  · exact .inr ⟨doubles_le_trans hupper ha, hhi⟩

theorem Degrees.isFinite (hd : Degrees limit x) (hlow : -limit ≤ a) (hhigh : a ≤ limit) :
    a.isFinite = true := by
  obtain ⟨y, hy, -⟩ := number_of_between hd.low hd.high hlow hhigh
  exact isFinite_of_number hy

/-! ## Boxes -/

/-- The range check makes the check for finite degrees redundant. -/
theorem Point.onGlobe_iff {p : Point} : p.onGlobe = true ↔
    (-90 ≤ p.lat ∧ p.lat ≤ 90) ∧ -180 ≤ p.lon ∧ p.lon ≤ 180 := by
  simp only [onGlobe, Bool.and_eq_true, decide_eq_true_eq]
  constructor
  · rintro ⟨⟨⟨⟨-, hs⟩, hn⟩, hw⟩, he⟩
    exact ⟨⟨hs, hn⟩, hw, he⟩
  · rintro ⟨⟨hs, hn⟩, hw, he⟩
    exact ⟨⟨⟨⟨⟨degrees_lat.isFinite hs hn, degrees_lon.isFinite hw he⟩, hs⟩, hn⟩, hw⟩, he⟩

namespace Box

variable {b c : Box} {p : Point}

theorem contains_iff : b.contains p = true ↔
    (b.sw.lat ≤ p.lat ∧ p.lat ≤ b.ne.lat) ∧ b.sw.lon ≤ p.lon ∧ p.lon ≤ b.ne.lon := by
  simp only [contains, Bool.and_eq_true, decide_eq_true_eq, and_assoc]

/-- Boxes with a position in common meet. -/
theorem meets_of_contains (h : b.contains p = true) (h' : c.contains p = true) :
    b.meets c = true := by
  obtain ⟨⟨hs, hn⟩, hw, he⟩ := contains_iff.mp h
  obtain ⟨⟨hs', hn'⟩, hw', he'⟩ := contains_iff.mp h'
  simp only [meets, Bool.and_eq_true, decide_eq_true_eq]
  exact ⟨⟨⟨doubles_le_trans hs hn', doubles_le_trans hs' hn⟩, doubles_le_trans hw he'⟩,
    doubles_le_trans hw' he⟩

/-- A box is proper when it is made of a stretch of latitudes and one of longitudes. -/
theorem isProper_iff : b.isProper = true ↔
    Stretch 90 b.sw.lat b.ne.lat ∧ Stretch 180 b.sw.lon b.ne.lon := by
  simp only [isProper, Bool.and_eq_true, decide_eq_true_eq, Point.onGlobe_iff]
  constructor
  · rintro ⟨⟨⟨⟨⟨hs, -⟩, hw, -⟩, ⟨-, hn⟩, -, he⟩, hlat⟩, hlon⟩
    exact ⟨⟨hs, hlat, hn⟩, ⟨hw, hlon, he⟩⟩
  · rintro ⟨hlat, hlon⟩
    have hlat' := doubles_le_trans hlat.low hlat.order
    have hlon' := doubles_le_trans hlon.low hlon.order
    exact ⟨⟨⟨⟨⟨hlat.low, doubles_le_trans hlat.order hlat.high⟩,
      hlon.low, doubles_le_trans hlon.order hlon.high⟩,
      ⟨hlat', hlat.high⟩, hlon', hlon.high⟩, hlat.order⟩, hlon.order⟩

/-- Positions in a proper box are on the globe. -/
theorem onGlobe_of_contains (h : b.isProper = true) (hp : b.contains p = true) :
    p.onGlobe = true := by
  obtain ⟨hlat, hlon⟩ := isProper_iff.mp h
  obtain ⟨⟨hs, hn⟩, hw, he⟩ := contains_iff.mp hp
  exact Point.onGlobe_iff.mpr
    ⟨⟨doubles_le_trans hlat.low hs, doubles_le_trans hn hlat.high⟩,
      doubles_le_trans hlon.low hw, doubles_le_trans he hlon.high⟩

/-- **Quarters are proper boxes.** -/
theorem isProper_of_mem_quarters (h : b.isProper = true) :
    ∀ q ∈ b.quarters, q.isProper = true := by
  obtain ⟨hlat, hlon⟩ := isProper_iff.mp h
  -- a quarter is a half of the latitudes with a half of the longitudes
  obtain ⟨hsouth, hnorth⟩ := hlat.halves degrees_lat
  obtain ⟨hwest, heast⟩ := hlon.halves degrees_lon
  intro q hq
  simp only [quarters, List.mem_cons, List.not_mem_nil, or_false] at hq
  rcases hq with rfl | rfl | rfl | rfl
  · exact isProper_iff.mpr ⟨hsouth, hwest⟩
  · exact isProper_iff.mpr ⟨hsouth, heast⟩
  · exact isProper_iff.mpr ⟨hnorth, hwest⟩
  · exact isProper_iff.mpr ⟨hnorth, heast⟩

/-- Whether the corners are in the right order; the box may be a line or a position. -/
structure Upright (c : Box) : Prop where
  lat : c.sw.lat ≤ c.ne.lat
  lon : c.sw.lon ≤ c.ne.lon

theorem meets_iff : b.meets c = true ↔
    (b.sw.lat ≤ c.ne.lat ∧ c.sw.lat ≤ b.ne.lat) ∧ b.sw.lon ≤ c.ne.lon ∧ c.sw.lon ≤ b.ne.lon := by
  simp only [meets, Bool.and_eq_true, decide_eq_true_eq, and_assoc]

theorem meets_point (b : Box) (p : Point) : b.meets ⟨p, p⟩ = b.contains p := rfl

/-- **What touches the box touches a quarter**, be it at an edge or a corner only. -/
theorem exists_quarter_meets (h : b.isProper = true) (hc : c.Upright) (hm : b.meets c = true) :
    ∃ q ∈ b.quarters, q.meets c = true := by
  obtain ⟨hlat, hlon⟩ := isProper_iff.mp h
  obtain ⟨⟨hs, hn⟩, hw, he⟩ := meets_iff.mp hm
  simp only [quarters, List.mem_cons, List.not_mem_nil, or_false, exists_eq_or_imp, exists_eq_left]
  rcases hlat.meets_halves degrees_lat hs hn hc.lat with hsouth | hnorth
  · rcases hlon.meets_halves degrees_lon hw he hc.lon with hwest | heast
    · exact .inl (meets_iff.mpr ⟨hsouth, hwest⟩)
    · exact .inr (.inl (meets_iff.mpr ⟨hsouth, heast⟩))
  · rcases hlon.meets_halves degrees_lon hw he hc.lon with hwest | heast
    · exact .inr (.inr (.inl (meets_iff.mpr ⟨hnorth, hwest⟩)))
    · exact .inr (.inr (.inr (meets_iff.mpr ⟨hnorth, heast⟩)))

/-- **The quarters cover the box.** A position is a box with both corners there. -/
theorem exists_quarter (h : b.isProper = true) (hp : b.contains p = true) :
    ∃ q ∈ b.quarters, q.contains p = true := by
  have hpoint : Upright ⟨p, p⟩ := by
    obtain ⟨⟨hs, -⟩, hw, -⟩ := contains_iff.mp hp
    exact ⟨(doubles_le_self hs).2, (doubles_le_self hw).2⟩
  simpa only [meets_point] using exists_quarter_meets h hpoint ((meets_point b p).trans hp)

end Box

end VehiclePrivacy
