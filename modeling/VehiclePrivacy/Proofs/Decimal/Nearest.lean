import VehiclePrivacy.Decimal.Literal
import VehiclePrivacy.Proofs.Binary64.Closeness
import VehiclePrivacy.Proofs.Binary64.Conversion
import VehiclePrivacy.Proofs.Binary64.Monotone

/-!
# The double nearest to a decimal

Settings and numeric strings are read by `nearestFloat`, which rounds once, whatever the digits and
the exponent are (`nearestFloat_yields`). The shortcuts for decimals that are out of range take the
place of the decimal itself only where it would be rounded to the same.
-/

namespace VehiclePrivacy.Decimal

open Binary64 Float.Model

variable {D : ℕ} {p : ℤ} {v : ℚ}

/-! ## Decimals out of range -/

/-- Every decimal is rounded to some number. -/
theorem exists_rounds (D : ℕ) (p : ℤ) : ∃ y, Rounds (D * 10 ^ p) y := by
  rcases Nat.eq_zero_or_pos D with rfl | hD
  · exact ⟨0, by rw [Nat.cast_zero, zero_mul]; exact rounds_zero⟩
  · have h := div_unpacked_yields (u := .finite .positive (D * 10 ^ p.toNat) 0 (by positivity))
      (v := .finite .positive (10 ^ (-p).toNat) 0 (by positivity)) rfl rfl
      (by rw [signed_natCast]; positivity)
    obtain ⟨y, hrounds, -⟩ := h
    rw [signed_natCast, signed_natCast] at hrounds
    have hvalue : (D : ℚ) * 10 ^ p = ((D * 10 ^ p.toNat : ℕ) : ℚ) / ((10 ^ (-p).toNat : ℕ) : ℚ) := by
      have hp : p = p.toNat - (-p).toNat := by omega
      conv => lhs; rw [hp, zpow_sub₀ (by norm_num), zpow_natCast, zpow_natCast]
      push_cast
      exact (mul_div_assoc _ _ _).symm
    exact ⟨y, hvalue ▸ hrounds⟩

/-- What is too large is rounded to a number that is stored as infinite. -/
theorem clamp_of_overflow {y : ℚ} (h : Rounds v y) (hv : overflow ≤ v) :
    clamp y = ((⊤ : WithTop ℚ) : Value) := by
  have hbound : Canonical (2 ^ 52) 972 := ⟨by norm_num, by norm_num, .inr le_rfl⟩
  have hvalue : ((2 ^ 52 : ℕ) : ℚ) * 2 ^ (972 : ℤ) = overflow := by
    rw [overflow, show (1024 : ℤ) = 52 + 972 by norm_num, two_zpow_add]
    norm_num
  rw [clamp, if_pos ((hvalue ▸ hbound.rounds).mono h hv)]

theorem digits_bounds (hD : 0 < D) :
    10 ^ ((Nat.toDigits 10 D).length - 1) ≤ D ∧ D < 10 ^ (Nat.toDigits 10 D).length := by
  have hlength := Nat.length_toDigits_pos (b := 10) (n := D)
  refine ⟨?_, (Nat.length_toDigits_le_iff (by decide) hlength).mp le_rfl⟩
  by_contra hlt
  have hne : (Nat.toDigits 10 D).length - 1 ≠ 0 := by
    intro hzero
    rw [hzero, pow_zero] at hlt
    omega
  have hle := (Nat.length_toDigits_le_iff (by decide) (Nat.pos_of_ne_zero hne)).mpr (not_le.mp hlt)
  omega

/-- The count of its digits bounds a decimal from both sides. -/
theorem decimal_bounds (hD : 0 < D) (p : ℤ) :
    (10 : ℚ) ^ (p + (Nat.toDigits 10 D).length - 1) ≤ D * 10 ^ p ∧
      (D : ℚ) * 10 ^ p < 10 ^ (p + (Nat.toDigits 10 D).length) := by
  obtain ⟨hlow, hhigh⟩ := digits_bounds hD
  have hlength := Nat.length_toDigits_pos (b := 10) (n := D)
  have hp : (0 : ℚ) < 10 ^ p := by positivity
  constructor
  · have hsplit : p + (Nat.toDigits 10 D).length - 1 =
        ((Nat.toDigits 10 D).length - 1 : ℕ) + p := by omega
    rw [hsplit, zpow_add₀ (by norm_num), zpow_natCast]
    exact mul_le_mul_of_nonneg_right (by exact_mod_cast hlow) hp.le
  · rw [add_comm, zpow_add₀ (by norm_num), zpow_natCast]
    exact mul_lt_mul_of_pos_right (by exact_mod_cast hhigh) hp

theorem overflow_le_limit : overflow ≤ 10 ^ (310 : ℤ) := by
  have hnat : 2 ^ 1024 ≤ 10 ^ 310 := by decide +kernel
  show (2 : ℚ) ^ 1024 ≤ 10 ^ 310
  exact_mod_cast hnat

theorem overflow_le_of_digits (hD : 0 < D) (h : p + (Nat.toDigits 10 D).length > 310) :
    overflow ≤ D * 10 ^ p := by
  calc overflow ≤ 10 ^ (310 : ℤ) := overflow_le_limit
    _ ≤ 10 ^ (p + (Nat.toDigits 10 D).length - 1) :=
        zpow_le_zpow_right₀ (by norm_num) (by omega)
    _ ≤ D * 10 ^ p := (decimal_bounds hD p).1

theorem tiny_of_digits (hD : 0 < D) (h : p + (Nat.toDigits 10 D).length < -330) :
    (D : ℚ) * 10 ^ p ≤ 2 ^ (-1075 : ℤ) := by
  have hlimit : (10 : ℚ) ^ (-331 : ℤ) ≤ 2 ^ (-1075 : ℤ) := by
    have hnat : 2 ^ 1075 ≤ 10 ^ 331 := by decide +kernel
    rw [zpow_neg, zpow_neg, inv_le_inv₀ (by positivity) (by positivity)]
    show (2 : ℚ) ^ 1075 ≤ 10 ^ 331
    exact_mod_cast hnat
  calc (D : ℚ) * 10 ^ p ≤ 10 ^ (p + (Nat.toDigits 10 D).length) := (decimal_bounds hD p).2.le
    _ ≤ 10 ^ (-331 : ℤ) := zpow_le_zpow_right₀ (by norm_num) (by omega)
    _ ≤ 2 ^ (-1075 : ℤ) := hlimit

/-! ## Rounding -/

/-- **A decimal is rounded once**, to the nearest double. -/
theorem nearestFloat_yields (D : ℕ) (p : ℤ) : Yields (D * 10 ^ p) (nearestFloat D p) := by
  rcases Nat.eq_zero_or_pos D with rfl | hD
  · have hzero : value? (nearestFloat 0 p) = some (.number 0) := value?_zero
    rw [Nat.cast_zero, zero_mul]
    exact yields_of_number hzero
  obtain ⟨y, hrounds⟩ := exists_rounds D p
  have hpos : (0 : ℚ) ≤ D * 10 ^ p := by positivity
  rw [nearestFloat, if_neg hD.ne']
  split
  · rename_i hlarge
    obtain ⟨z, hz, hinfinite⟩ : Yields ((1 : ℕ) * 10 ^ (310 : ℤ)) (Float.ofScientific 1 false 310) :=
      ofScientific_yields one_pos (by norm_num) (by norm_num)
    rw [clamp_of_overflow hz (by rw [Nat.cast_one, one_mul]; exact overflow_le_limit)] at hinfinite
    refine ⟨y, hrounds, ?_⟩
    rw [clamp_of_overflow hrounds (overflow_le_of_digits hD hlarge)]
    exact hinfinite
  split
  · rename_i hsmall
    rw [hrounds.unique (rounds_tiny hpos (tiny_of_digits hD hsmall))] at hrounds
    refine ⟨0, hrounds, ?_⟩
    rw [clamp_of_lt (by rw [abs_zero]; exact overflow_pos)]
    exact value?_zero
  · rename_i hlarge hsmall
    have hlog : (Nat.toDigits 10 D).length - 1 ≤ D.log2 := by
      rw [Nat.le_log2 hD.ne']
      exact (Nat.pow_le_pow_left (by decide) _).trans (digits_bounds hD).1
    exact ofScientific_yields hD (by omega) (by omega)

end VehiclePrivacy.Decimal
