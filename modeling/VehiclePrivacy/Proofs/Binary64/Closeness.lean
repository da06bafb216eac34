import VehiclePrivacy.Proofs.Binary64.Rounding

/-!
# How near rounded numbers stay

Rounding leads half a unit in the last place away at most (`Rounds.error`). Where several operations
follow each other it is their factors that are multiplied, so nearness of positive numbers is said
by a factor (`Within`), and goes through products and quotients (`Within.mul`, `Within.div`).
-/

namespace VehiclePrivacy.Binary64

variable {x x' y y' z c c' : ℚ}

/-- What rounding takes away or adds: a part of the number, or a part of the least number of all. -/
theorem Rounds.error (h : Rounds x y) :
    |y - x| ≤ 2 ^ (-53 : ℤ) * |x| ∨ |y - x| ≤ 2 ^ (-1075 : ℤ) := by
  obtain ⟨t, n, hscale, hnearest, rfl⟩ := h
  have hpos := two_zpow_pos t
  have herror : |n * 2 ^ t - x| ≤ 2 ^ (t - 1) := by
    have hfactor : n * 2 ^ t - x = -((x / 2 ^ t - n) * 2 ^ t) := by
      field_simp
      ring
    rw [hfactor, abs_neg, abs_mul, abs_of_pos hpos, zpow_sub_one₀ two_ne_zero]
    have := hnearest.near
    nlinarith
  rcases hscale.tight with rfl | htight
  · exact .inr herror
  · refine .inl (herror.trans ?_)
    calc (2 : ℚ) ^ (t - 1) = 2 ^ (-53 : ℤ) * 2 ^ (t + 52) := by
          rw [← two_zpow_add]
          congr 1
          ring
      _ ≤ 2 ^ (-53 : ℤ) * |x| := by gcongr

/-- Both parts together. -/
theorem Rounds.error_le (h : Rounds x y) (hx : 0 < x) :
    |y - x| ≤ 2 ^ (-53 : ℤ) * x + 2 ^ (-1075 : ℤ) := by
  have hpart := mul_pos (two_zpow_pos (-53)) hx
  have hleast := two_zpow_pos (-1075)
  rcases h.error with h | h
  · rw [abs_of_pos hx] at h
    linarith
  · linarith

/-- Half of the least number, and less, is rounded to zero. -/
theorem rounds_tiny (h : 0 ≤ x) (hx : x ≤ 2 ^ (-1075 : ℤ)) : Rounds x 0 := by
  refine ⟨-1074, 0, ⟨le_rfl, ?_, .inl rfl⟩, ⟨?_, fun _ => ⟨0, rfl⟩⟩, by simp⟩
  · rw [abs_of_nonneg h]
    exact hx.trans_lt (two_zpow_lt.mpr (by norm_num))
  · rw [Int.cast_zero, sub_zero, abs_of_nonneg (div_nonneg h (two_zpow_pos _).le),
      div_le_iff₀ (two_zpow_pos _)]
    refine hx.trans (le_of_eq ?_)
    rw [show (-1075 : ℤ) = -1 + -1074 by norm_num, two_zpow_add]
    norm_num

/-- Two positive numbers are apart by no more than a factor. -/
structure Within (c x y : ℚ) : Prop where
  pos : 0 < x
  pos' : 0 < y
  upper : y ≤ c * x
  lower : x ≤ c * y

theorem Within.weaken (h : Within c x y) (hc : c ≤ c') : Within c' x y :=
  ⟨h.pos, h.pos', h.upper.trans (mul_le_mul_of_nonneg_right hc h.pos.le),
    h.lower.trans (mul_le_mul_of_nonneg_right hc h.pos'.le)⟩

theorem Within.trans (h : Within c x y) (h' : Within c' y z) (hc : 0 ≤ c) (hc' : 0 ≤ c') :
    Within (c * c') x z := by
  refine ⟨h.pos, h'.pos', ?_, ?_⟩
  · calc z ≤ c' * y := h'.upper
      _ ≤ c' * (c * x) := mul_le_mul_of_nonneg_left h.upper hc'
      _ = c * c' * x := by ring
  · calc x ≤ c * y := h.lower
      _ ≤ c * (c' * z) := mul_le_mul_of_nonneg_left h'.lower hc
      _ = c * c' * z := by ring

theorem Within.mul (h : Within c x y) (h' : Within c' x' y') :
    Within (c * c') (x * x') (y * y') := by
  have hx := h.pos
  have hx' := h'.pos
  have hy := h.pos'
  have hy' := h'.pos'
  refine ⟨mul_pos hx hx', mul_pos hy hy', ?_, ?_⟩
  · calc y * y' ≤ c * x * (c' * x') :=
          mul_le_mul h.upper h'.upper hy'.le (hy.le.trans h.upper)
      _ = c * c' * (x * x') := by ring
  · calc x * x' ≤ c * y * (c' * y') :=
          mul_le_mul h.lower h'.lower hx'.le (hx.le.trans h.lower)
      _ = c * c' * (y * y') := by ring

theorem Within.inv (h : Within c x y) : Within c x⁻¹ y⁻¹ := by
  have hx := h.pos
  have hy := h.pos'
  refine ⟨inv_pos.mpr hx, inv_pos.mpr hy, ?_, ?_⟩
  · rw [← div_eq_mul_inv, inv_le_iff_one_le_mul₀ hy, div_mul_eq_mul_div, one_le_div hx]
    exact h.lower
  · rw [← div_eq_mul_inv, inv_le_iff_one_le_mul₀ hx, div_mul_eq_mul_div, one_le_div hy]
    exact h.upper

theorem Within.div (h : Within c x y) (h' : Within c' x' y') :
    Within (c * c') (x / x') (y / y') := by
  rw [div_eq_mul_inv, div_eq_mul_inv]
  exact h.mul h'.inv

theorem within_of_error {ε : ℚ} (hx : 0 < x) (h : |y - x| ≤ ε * x) (hε : ε < 1) (hc : ε ≤ c)
    (hfactor : 1 ≤ (1 + c) * (1 - ε)) : Within (1 + c) x y := by
  obtain ⟨hlow, hhigh⟩ := abs_le.mp h
  have hlow : (1 - ε) * x ≤ y := by linarith
  have hrest : 0 < 1 - ε := by linarith
  have hc' : 0 ≤ 1 + c := (pos_of_mul_pos_left (one_pos.trans_le hfactor) hrest.le).le
  refine ⟨hx, (mul_pos hrest hx).trans_le hlow, ?_, ?_⟩
  · have := mul_le_mul_of_nonneg_right hc hx.le
    linarith
  · calc x ≤ (1 + c) * (1 - ε) * x := le_mul_of_one_le_left hx.le hfactor
      _ = (1 + c) * ((1 - ε) * x) := mul_assoc _ _ _
      _ ≤ (1 + c) * y := mul_le_mul_of_nonneg_left hlow hc'

/-- The least number of all, as a part of a number that is not too small. -/
theorem error_of_le {k : ℚ} (h : 2 ^ (-1022 : ℤ) ≤ k * x) :
    (2 : ℚ) ^ (-1075 : ℤ) ≤ 2 ^ (-53 : ℤ) * k * x := by
  rw [show (-1075 : ℤ) = -53 + -1022 by norm_num, two_zpow_add, mul_assoc]
  exact mul_le_mul_of_nonneg_left h (two_zpow_pos _).le

/-- Rounding a number that is not too small. -/
theorem Rounds.within (h : Rounds x y) (hx : 2 ^ (-1022 : ℤ) ≤ x) :
    Within (1 + 2 ^ (-52 : ℤ)) x y := by
  have hpos : 0 < x := (two_zpow_pos _).trans_le hx
  have herror : |y - x| ≤ 2 ^ (-53 : ℤ) * x := by
    rcases h.error with h | h
    · rwa [abs_of_pos hpos] at h
    · have := error_of_le (k := 1) (x := x) (by rwa [one_mul])
      linarith
  exact within_of_error hpos herror (by norm_num) (by norm_num) (by norm_num)

theorem Rounds.within_of_one_le (h : Rounds x y) (hx : 1 ≤ x) :
    Within (1 + 2 ^ (-52 : ℤ)) x y :=
  h.within ((zpow_le_one_of_nonpos₀ (by norm_num) (by norm_num)).trans hx)

/-- Rounding a number that is small, but not by far. -/
theorem Rounds.within_small (h : Rounds x y) (hx : 2 ^ (-1022 : ℤ) ≤ 3 * x) :
    Within (1 + 2 ^ (-51 : ℤ)) x y := by
  have hpos : 0 < x := pos_of_mul_pos_right ((two_zpow_pos _).trans_le hx) (by norm_num)
  have herror : |y - x| ≤ 2 ^ (-53 : ℤ) * 3 * x := by
    rcases h.error with h | h
    · rw [abs_of_pos hpos] at h
      have := mul_pos (two_zpow_pos (-53)) hpos
      linarith
    · exact h.trans (error_of_le hx)
  exact within_of_error hpos herror (by norm_num) (by norm_num) (by norm_num)

end VehiclePrivacy.Binary64
