import VehiclePrivacy.Proofs.Binary64.Closeness
import VehiclePrivacy.Proofs.Binary64.Conversion
import VehiclePrivacy.Proofs.Binary64.Monotone

/-!
# When two results are the same double

Two operations that round the same number come to the same double (`eq_of_yields`). Only zero needs
care, for a number does not show its sign: zero times or over a positive number is the positive zero
again (`zero_mul_of_pos`, `zero_div_of_pos`).
-/

namespace VehiclePrivacy.Binary64

open Float.Model Float.Model.UnpackedFloat Decimal

variable {a b : Float} {x y q : ℚ}

/-! ## Zero -/

/-- A positive number unpacks with its sign. -/
theorem unpack_of_pos (hb : value? b = some (.number y)) (hy : 0 < y) :
    ∃ m e hm, b.toModel.unpack = .finite .positive m e hm := by
  rcases unpacked_of_number hb with ⟨s, -, rfl⟩ | ⟨s, m, e, hm, hu, rfl⟩
  · exact absurd rfl hy.ne
  · cases s with
    | positive => exact ⟨m, e, hm, hu⟩
    | negative => exact absurd hy (not_lt.mpr (neg_nonpos.mpr (finite_pos hm e).le))

theorem zero_mul_of_pos (hb : value? b = some (.number y)) (hy : 0 < y) : 0 * b = 0 := by
  obtain ⟨m, e, hm, hu⟩ := unpack_of_pos hb hy
  have hmul : (0 * b).toModel.unpack = (Float.Model.pack (UnpackedFloat.mul .binary64
      (0 : Float).toModel.unpack b.toModel.unpack)).unpack := rfl
  refine ext_unpack ?_
  rw [hmul, unpack_zero, hu]
  exact unpack_pack_zero .positive

theorem zero_div_of_pos (hb : value? b = some (.number y)) (hy : 0 < y) : 0 / b = 0 := by
  obtain ⟨m, e, hm, hu⟩ := unpack_of_pos hb hy
  have hdiv : (0 / b).toModel.unpack = (Float.Model.pack (UnpackedFloat.div .binary64
      (0 : Float).toModel.unpack b.toModel.unpack)).unpack := rfl
  refine ext_unpack ?_
  rw [hdiv, unpack_zero, hu]
  exact unpack_pack_zero .positive

theorem floatOfNat_zero : floatOfNat 0 = 0 := ext_unpack (by with_unfolding_all rfl)

/-! ## Rounding the same number -/

/-- What two results are rounded from is the same number, which is not too small or too large: then
they are the same double. -/
theorem eq_of_yields (ha : Yields x a) (hb : Yields x b) (hx : 2 ^ (-1022 : ℤ) ≤ x)
    (hq : value? b = some (.number q)) : a = b := by
  obtain ⟨y, hy, hvalue⟩ := ha
  obtain ⟨w, hw, hvalue'⟩ := hb
  obtain rfl := hy.unique hw
  rw [← hvalue'] at hvalue
  obtain ⟨r, hr, hnumber⟩ := (show Yields x b from ⟨y, hw, hvalue'⟩).number (isInf_of_number hq)
  exact eq_of_number (hvalue.trans hnumber) hnumber (hr.within hx).pos'.ne'

/-- A float whose negative is finite is finite. -/
theorem number_of_finite_neg (h : (value? a).isSome = true) (hfinite : (-a).isFinite = true) :
    ∃ q, value? a = some (.number q) := by
  obtain ⟨v, hv⟩ := Option.isSome_iff_exists.mp h
  have hneg : (-a).toModel.unpack = (Float.Model.pack a.toModel.unpack.neg).unpack := rfl
  have hunpack : (-a).isFinite = (-a).toModel.unpack.isFinite := rfl
  have hinfinite : ∀ s, a.toModel.unpack = .infinity s → False := by
    intro s hs
    rw [hunpack, hneg, hs] at hfinite
    have hpacked : (Float.Model.pack (UnpackedFloat.infinity s).neg).unpack =
        .infinity (-s) := unpack_pack_infinity _
    rw [hpacked] at hfinite
    cases hfinite
  rcases unpacked_of_value hv with ⟨hs, -⟩ | ⟨hs, -⟩ | ⟨q, rfl⟩
  · exact (hinfinite _ hs).elim
  · exact (hinfinite _ hs).elim
  · exact ⟨q, hv⟩

end VehiclePrivacy.Binary64
