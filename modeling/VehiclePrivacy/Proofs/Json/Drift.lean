import VehiclePrivacy.Proofs.Binary64.Closeness
import VehiclePrivacy.Proofs.Binary64.Monotone
import VehiclePrivacy.Proofs.Json.Floats

/-!
# How far a float drifts

A float is written with digits that read back, but the reader is not the one they were chosen for.
It rounds the digits, the power of ten and the product or quotient of both, so it may come to a
neighbour of the number that the digits write, never further than a few roundings away
(`scaled_of_scale?`). What was written for a float is read as a float again (`reread`,
`scale?_leftOf`), a few units in the last place away at most (`reread_near`), and as the very same
one where neither the digits nor the power of ten need rounding (`reread_short`).
-/

namespace VehiclePrivacy.Json

open Decimal Numeral Binary64

variable {D n : ℕ} {a x : Float} {b : Binary} {v y z : ℚ}

/-! ## Scaling a significand -/

/-- The float is a number within a few roundings of `v`, rounded once more. -/
def Scaled (v : ℚ) (a : Float) : Prop :=
  ∃ z y, Within (1 + 11 * 2 ^ (-53 : ℤ)) v z ∧ Rounds z y ∧ value? a = some (.number y)

theorem significand_near (hpos : 0 < D) (hlt : D < 2 ^ 64) :
    ∃ f, value? (floatOfNat D) = some (.number f) ∧ Within (1 + 2 ^ (-52 : ℤ)) D f := by
  obtain ⟨f, hrounds, hvalue⟩ := floatOfNat_number hlt
  exact ⟨f, hvalue, hrounds.within_of_one_le (by exact_mod_cast hpos)⟩

theorem powerOfTen_near (hn : n ≤ tableSize) :
    ∃ P, value? (powerOfTen n) = some (.number P) ∧ Within (1 + 2 ^ (-52 : ℤ)) (10 ^ n) P ∧
      1 ≤ P := by
  obtain ⟨P, hrounds, hvalue, hone⟩ := powerOfTen_number hn
  exact ⟨P, hvalue, hrounds.within_of_one_le (one_le_pow₀ (by norm_num)), hone⟩

/-- Scaling up, within range. -/
theorem scaled_mul (hpos : 0 < D) (hlt : D < 2 ^ 64) (hn : n ≤ tableSize)
    (hfinite : (floatOfNat D * powerOfTen n).isInf = false) :
    Scaled (D * 10 ^ n) (floatOfNat D * powerOfTen n) := by
  obtain ⟨f, hf, hfnear⟩ := significand_near hpos hlt
  obtain ⟨P, hP, hPnear, -⟩ := powerOfTen_near hn
  obtain ⟨y, hrounds, hvalue⟩ := (mul_yields hf hP).number hfinite
  exact ⟨f * P, y, (hfnear.mul hPnear).weaken (by norm_num), hrounds, hvalue⟩

/-- Scaling down by one power of the table. -/
theorem scaled_div (hpos : 0 < D) (hlt : D < 2 ^ 64) (hn : n ≤ tableSize) :
    Scaled (D / 10 ^ n) (floatOfNat D / powerOfTen n) := by
  obtain ⟨f, hf, hfnear⟩ := significand_near hpos hlt
  obtain ⟨P, hP, hPnear, hone⟩ := powerOfTen_near hn
  obtain ⟨y, hrounds, hvalue⟩ := div_number hf hP hfnear.pos'.le hone
  exact ⟨f / P, y, (hfnear.div hPnear).weaken (by norm_num), hrounds, hvalue⟩

/-- A quotient by the largest power of the table may be below the least number with all its bits,
but not by far. -/
theorem quotient_not_tiny (hpos : 0 < D) (h : Within (11 / 10) (D / 10 ^ tableSize) z) :
    (2 : ℚ) ^ (-1022 : ℤ) ≤ 3 * z := by
  have hone : (1 : ℚ) ≤ D := by exact_mod_cast hpos
  have htable : (10 : ℚ) ^ tableSize * 11 ≤ 30 * 2 ^ 1022 := by
    have hnat : 10 ^ 308 * 11 ≤ 30 * 2 ^ 1022 := by decide +kernel
    show (10 : ℚ) ^ 308 * 11 ≤ 30 * 2 ^ 1022
    exact_mod_cast hnat
  have hlow := h.lower
  have hz := h.pos'.le
  rw [div_le_iff₀ (by positivity)] at hlow
  rw [zpow_neg, zpow_ofNat, inv_le_iff_one_le_mul₀ (by positivity)]
  generalize (2 : ℚ) ^ 1022 = S at *
  calc (1 : ℚ) ≤ 11 / 10 * z * 10 ^ tableSize := hone.trans hlow
    _ = z * (10 ^ tableSize * 11) / 10 := by ring
    _ ≤ z * (30 * S) / 10 := by gcongr
    _ = 3 * z * S := by ring

/-- The first quotient is a number, and not zero. -/
theorem first_quotient (hpos : 0 < D) (hlt : D < 2 ^ 64) :
    ∃ w, value? (floatOfNat D / powerOfTen tableSize) = some (.number w) ∧
      Within ((1 + 2 ^ (-52 : ℤ)) * (1 + 2 ^ (-52 : ℤ)) * (1 + 2 ^ (-51 : ℤ)))
        (D / 10 ^ tableSize) w := by
  obtain ⟨f, hf, hfnear⟩ := significand_near hpos hlt
  obtain ⟨P, hP, hPnear, hone⟩ := powerOfTen_near (n := tableSize) le_rfl
  obtain ⟨w, hw, hwvalue⟩ := div_number hf hP hfnear.pos'.le hone
  have hquotient := hfnear.div hPnear
  have hwnear := hw.within_small (quotient_not_tiny hpos (hquotient.weaken (by norm_num)))
  exact ⟨w, hwvalue, hquotient.trans hwnear (by norm_num) (by norm_num)⟩

/-- Scaling down by the largest power of the table and another one. -/
theorem scaled_div_div (hpos : 0 < D) (hlt : D < 2 ^ 64) (hn : n ≤ tableSize) :
    Scaled (D / 10 ^ (tableSize + n))
      (floatOfNat D / powerOfTen tableSize / powerOfTen n) := by
  obtain ⟨w, hw, hwnear⟩ := first_quotient hpos hlt
  obtain ⟨Q, hQ, hQnear, hone⟩ := powerOfTen_near hn
  obtain ⟨y, hrounds, hvalue⟩ := div_number hw hQ hwnear.pos'.le hone
  have hnear := hwnear.div hQnear
  rw [div_div, ← pow_add] at hnear
  exact ⟨w / Q, y, hnear.weaken (by norm_num), hrounds, hvalue⟩

/-- Zero needs no steps to be scaled down. -/
theorem value?_scaleDown_zero (ha : value? a = some (.number 0)) (n : ℕ) :
    value? (scaleDown a n) = some (.number 0) := by
  rw [scaleDown]
  split
  · rename_i hn
    obtain ⟨P, -, hP, hone⟩ := powerOfTen_number hn
    obtain ⟨y, hrounds, hvalue⟩ := div_number ha hP le_rfl hone
    rw [zero_div] at hrounds
    rwa [hrounds.unique rounds_zero] at hvalue
  · rw [beq_of_value ha value?_zero, if_pos rfl]
    exact ha

/-- What is scaled down by two powers of the table, or further, is below half the least number. -/
theorem tiny_quotient (hlt : D < 2 ^ 64) (hn : tableSize + tableSize ≤ n) :
    2 * ((D : ℚ) / 10 ^ n) ≤ 2 ^ (-1075 : ℤ) := by
  have hlimit : 2 * 2 ^ 64 * 2 ^ 1075 ≤ 10 ^ (tableSize + tableSize) := by decide +kernel
  have hnat : 2 * D * 2 ^ 1075 ≤ 10 ^ n :=
    calc 2 * D * 2 ^ 1075 ≤ 2 * 2 ^ 64 * 2 ^ 1075 := by gcongr
      _ ≤ 10 ^ (tableSize + tableSize) := hlimit
      _ ≤ 10 ^ n := Nat.pow_le_pow_right (by decide) hn
  rw [← mul_div_assoc, div_le_iff₀ (by positivity), zpow_neg, ← div_eq_inv_mul,
    le_div_iff₀ (two_zpow_pos _), zpow_ofNat]
  exact_mod_cast hnat

/-- What is scaled down by the largest power of the table twice is zero. -/
theorem second_quotient (hpos : 0 < D) (hlt : D < 2 ^ 64) :
    value? (floatOfNat D / powerOfTen tableSize / powerOfTen tableSize) = some (.number 0) := by
  obtain ⟨z, y, hnear, hrounds, hvalue⟩ := scaled_div_div hpos hlt (n := tableSize) le_rfl
  have hz : z ≤ 2 ^ (-1075 : ℤ) := by
    refine (hnear.upper.trans ?_).trans (tiny_quotient (n := tableSize + tableSize) hlt le_rfl)
    exact mul_le_mul_of_nonneg_right (by norm_num) hnear.pos.le
  rwa [hrounds.unique (rounds_tiny hnear.pos'.le hz)] at hvalue

/-- **Scaling** gives a number a few roundings away, if it gives any. -/
theorem scaled_of_scale? {p : ℤ} (hpos : 0 < D) (hlt : D < 2 ^ 64) (h : scale? D p = some a) :
    Scaled (D * 10 ^ p) a := by
  obtain ⟨f, hf, hfnear⟩ := significand_near hpos hlt
  have hnonzero := beq_zero_eq_false hf hfnear.pos'.ne'
  rcases p with n | k
  · have h : scaleUp? (floatOfNat D) n = some a := h
    rw [scaleUp?] at h
    rw [Int.ofNat_eq_natCast, zpow_natCast]
    split at h
    · rename_i hn
      dsimp only at h
      split at h
      · cases h
      · rename_i hfinite
        obtain rfl := Option.some.inj h
        exact scaled_mul hpos hlt hn (Bool.eq_false_iff.mpr hfinite)
    · rw [hnonzero, if_neg Bool.false_ne_true] at h
      cases h
  · obtain rfl := Option.some.inj h
    rw [zpow_negSucc, ← div_eq_mul_inv]
    generalize k + 1 = n
    by_cases hn : n ≤ tableSize
    · rw [scaleDown, if_pos hn]
      exact scaled_div hpos hlt hn
    rw [scaleDown, if_neg hn, hnonzero, if_neg Bool.false_ne_true]
    by_cases hn' : n - tableSize ≤ tableSize
    · have hsplit : n = tableSize + (n - tableSize) := by omega
      rw [scaleDown, if_pos hn']
      conv => arg 1; rw [hsplit]
      exact scaled_div_div hpos hlt hn'
    · -- two powers of the table leave nothing
      obtain ⟨w, hw, hwnear⟩ := first_quotient hpos hlt
      rw [scaleDown, if_neg hn', beq_zero_eq_false hw hwnear.pos'.ne', if_neg Bool.false_ne_true]
      have hquotient : (0 : ℚ) < D / 10 ^ n := by positivity
      have htiny := tiny_quotient (n := n) hlt (by omega)
      refine ⟨D / 10 ^ n, 0, ⟨hquotient, hquotient, ?_, ?_⟩, rounds_tiny hquotient.le (by linarith),
        value?_scaleDown_zero (second_quotient hpos hlt) _⟩
      · exact le_mul_of_one_le_left hquotient.le (by norm_num)
      · exact le_mul_of_one_le_left hquotient.le (by norm_num)

/-- Two numbers that are a few roundings apart are rounded to near floats. -/
theorem near_of_rounds {x : ℚ} (hnear : Within (1 + 12 * 2 ^ (-53 : ℤ)) v z) (hx : Rounds v x)
    (hy : Rounds z y) : |y - x| ≤ 2 ^ (-49 : ℤ) * x + 2 ^ (-1073 : ℤ) := by
  have hv := hnear.pos
  have hz := hnear.pos'
  have hup := hnear.upper
  have hlow := hnear.lower
  have hfour : (2 : ℚ) ^ (-1073 : ℤ) = 4 * 2 ^ (-1075 : ℤ) := by
    rw [show (-1073 : ℤ) = 2 + -1075 by norm_num, two_zpow_add]
    norm_num
  have hη := two_zpow_pos (-1075)
  have hxe := hx.error_le hv
  have hye := hy.error_le hz
  rw [hfour]
  generalize (2 : ℚ) ^ (-1075 : ℤ) = η at *
  obtain ⟨hxl, hxu⟩ := abs_le.mp hxe
  obtain ⟨hyl, hyu⟩ := abs_le.mp hye
  norm_num at hup hlow hxl hxu hyl hyu ⊢
  rw [abs_le]
  constructor <;> linarith

/-- What a number in the interval of a float is scaled to is near the float. -/
theorem Scaled.near (h : Scaled v a) {x : ℚ} (hx : Rounds v x) :
    ∃ y, value? a = some (.number y) ∧ |y - x| ≤ 2 ^ (-49 : ℤ) * x + 2 ^ (-1073 : ℤ) := by
  obtain ⟨z, y, hnear, hrounds, hvalue⟩ := h
  exact ⟨y, hvalue, near_of_rounds (hnear.weaken (by norm_num)) hx hrounds⟩

/-! ## Range -/

/-- The greatest doubles are scaled within range, each by itself. -/
theorem greatest_in_range : ∀ k < 8,
    (floatOfNat (leftOf ⟨false, 2 ^ 53 - 1 - k, 971⟩).digits *
      powerOfTen (leftOf ⟨false, 2 ^ 53 - 1 - k, 971⟩).exponent.toNat).isInf = false := by
  decide +kernel

/-- What stays a little below the greatest double is scaled within range. -/
theorem in_range_of_le (hpos : 0 < D) (hlt : D < 2 ^ 64) (hn : n ≤ tableSize)
    (hv : (D : ℚ) * 10 ^ n ≤ (2 ^ 53 - 8) * 2 ^ (971 : ℤ)) :
    (floatOfNat D * powerOfTen n).isInf = false := by
  obtain ⟨f, hf, hfnear⟩ := significand_near hpos hlt
  obtain ⟨P, hP, hPnear, -⟩ := powerOfTen_near hn
  obtain ⟨y, hrounds, hvalue⟩ := mul_yields hf hP
  have hnear := hfnear.mul hPnear
  have hbound : Canonical (2 ^ 53 - 1) 971 := ⟨by norm_num, by norm_num, .inr (by norm_num)⟩
  have hz : f * P ≤ ((2 ^ 53 - 1 : ℕ) : ℚ) * 2 ^ (971 : ℤ) := by
    refine (hnear.upper.trans (mul_le_mul_of_nonneg_left hv (by positivity))).trans ?_
    rw [← mul_assoc]
    refine mul_le_mul_of_nonneg_right ?_ (two_zpow_pos _).le
    norm_num
  have hle := hrounds.mono hbound.rounds hz
  have hnonneg := hrounds.nonneg hnear.pos'.le
  rw [clamp_of_lt (abs_lt.mpr ⟨(neg_lt_zero.mpr overflow_pos).trans_le hnonneg,
    hle.trans_lt (hbound.lt_overflow le_rfl)⟩)] at hvalue
  exact isInf_of_number hvalue

/-! ## The decimal that is left -/

theorem written_number (d : Digits) : (written d).number = d.number := by
  rw [written]
  split
  · rename_i h
    have hp : d.exponent = (d.exponent.toNat : ℤ) := (Int.toNat_of_nonneg h.1).symm
    rw [Digits.number, Digits.number]
    dsimp only
    conv_rhs => rw [hp, zpow_natCast]
    rw [zpow_neg_one]
    push_cast
    rw [pow_succ]
    ring
  · rfl

theorem written_exponent (d : Digits) :
    (written d).exponent = -1 ∨ (written d).exponent = d.exponent := by
  rw [written]
  split
  · exact .inl rfl
  · exact .inr rfl

/-- What a reader is left with of a double other than zero: a decimal that is rounded to it, with
a significand and an exponent within bounds. -/
structure Left (b : Binary) : Prop where
  pos : 0 < (leftOf b).digits
  lt : (leftOf b).digits < 2 ^ 64
  low : -340 ≤ (leftOf b).exponent
  high : (leftOf b).exponent ≤ 308
  contains : (Interval.ofBinary b).Contains (leftOf b).number

theorem left_of_binary (hm : 0 < b.significand) (hb : Canonical b.significand b.exponent)
    (he : b.exponent ≤ 971) : Left b := by
  have hit := Binary.shortest_hit hm .toEven
  have hlow := hit.le_exponent hm hb
  have hhigh := hit.exponent_le hm hb.bits he
  have hexponent := written_exponent (b.shortest .toEven)
  have hlt := written_digits_lt (hit.digits_lt hm hb.bits)
  have hcontains := hit.contains
  rw [← written_number] at hcontains
  refine ⟨hcontains.digits_pos (Interval.proper_ofBinary hm), hlt.trans (by norm_num), ?_, ?_,
    hcontains⟩
  · show -340 ≤ (written (b.shortest .toEven)).exponent
    rcases hexponent with h | h <;> rw [h] <;> omega
  · show (written (b.shortest .toEven)).exponent ≤ 308
    rcases hexponent with h | h <;> rw [h] <;> omega

/-- Scaling up the decimal that is left stays within range. -/
theorem Left.in_range (h : Left b) (hm : 0 < b.significand)
    (hb : Canonical b.significand b.exponent) (he : b.exponent ≤ 971) {n : ℕ}
    (hn : (leftOf b).exponent = n) :
    (floatOfNat (leftOf b).digits * powerOfTen n).isInf = false := by
  have hle := h.high
  rw [hn] at hle
  by_cases htop : b.exponent = 971 ∧ 2 ^ 53 - 8 ≤ b.significand
  · -- the sign plays no part
    obtain ⟨negative, m, e⟩ := b
    obtain ⟨rfl, hm'⟩ := htop
    dsimp only at hm' hb
    have hbits := hb.bits
    have hm : m = 2 ^ 53 - 1 - (2 ^ 53 - 1 - m) := by omega
    have hgreatest := greatest_in_range (2 ^ 53 - 1 - m) (by omega)
    rw [← hm] at hgreatest
    have hn : (leftOf ⟨false, m, 971⟩).exponent = n := hn
    rw [hn, Int.toNat_natCast] at hgreatest
    exact hgreatest
  · refine in_range_of_le h.pos h.lt (by exact_mod_cast hle) ?_
    have hhigh := h.contains.high
    rw [Digits.number, hn, zpow_natCast, Interval.highEnd_ofBinary] at hhigh
    refine hhigh.trans ?_
    have hbits : (b.significand : ℚ) + 1 ≤ 2 ^ 53 := by exact_mod_cast hb.bits
    rcases he.lt_or_eq with hlt | heq
    · calc ((b.significand : ℚ) + 1 / 2) * 2 ^ b.exponent ≤ 2 ^ 53 * 2 ^ (970 : ℤ) := by
            refine mul_le_mul (by linarith) (two_zpow_le.mpr (by omega)) (two_zpow_pos _).le ?_
            norm_num
        _ = 2 ^ 52 * 2 ^ (971 : ℤ) := by
            rw [show (971 : ℤ) = 1 + 970 by norm_num, two_zpow_add]
            ring
        _ ≤ (2 ^ 53 - 8) * 2 ^ (971 : ℤ) :=
            mul_le_mul_of_nonneg_right (by norm_num) (two_zpow_pos _).le
    · have hsmall : b.significand + 1 ≤ 2 ^ 53 - 8 := by
        by_contra hlarge
        exact htop ⟨heq, by omega⟩
      have hsmall' : (b.significand : ℚ) + 1 ≤ 2 ^ 53 - 8 := by
        have : ((b.significand + 1 : ℕ) : ℚ) ≤ ((2 ^ 53 - 8 : ℕ) : ℚ) := by exact_mod_cast hsmall
        push_cast at this
        norm_num at this ⊢
        linarith
      rw [heq]
      exact mul_le_mul_of_nonneg_right (by linarith) (two_zpow_pos _).le

/-- **Scaling the decimal that is left** always gives a number, a few roundings away. -/
theorem scale?_leftOf (hm : 0 < b.significand) (hb : Canonical b.significand b.exponent)
    (he : b.exponent ≤ 971) :
    ∃ a, scale? (leftOf b).digits (leftOf b).exponent = some a ∧ Scaled (leftOf b).number a := by
  have h := left_of_binary hm hb he
  obtain ⟨a, ha⟩ : ∃ a, scale? (leftOf b).digits (leftOf b).exponent = some a := by
    have hhigh := h.high
    rcases hexponent : (leftOf b).exponent with n | k
    · rw [hexponent] at hhigh
      have hn : n ≤ tableSize := Int.ofNat_le.mp hhigh
      have hrange := h.in_range hm hb he hexponent
      refine ⟨floatOfNat (leftOf b).digits * powerOfTen n, ?_⟩
      show scaleUp? _ n = _
      rw [scaleUp?, if_pos hn]
      dsimp only
      rw [hrange, if_neg Bool.false_ne_true]
    · exact ⟨_, rfl⟩
  exact ⟨a, ha, scaled_of_scale? h.pos h.lt ha⟩

/-! ## Rereading -/

/-- What a reader makes of a float that was written: the decimal that is left, scaled by the table
of powers of ten. Zeros are read as they are. -/
def reread (x : Float) : Float :=
  match Binary.ofFloat? x with
  | none => x
  | some b =>
    if b.significand = 0 then x
    else
      let y := (scale? (leftOf b).digits (leftOf b).exponent).getD x
      if b.negative then -y else y

/-- The float is finite. -/
def FiniteFloat (x : Float) : Prop := ∃ q : ℚ, value? x = some (.number q)

theorem reread_zero (h : Binary.ofFloat? x = some b) (hm : b.significand = 0) : reread x = x := by
  rw [reread, h]
  dsimp only
  rw [if_pos hm]

theorem reread_of_scale? (h : Binary.ofFloat? x = some b) (hm : 0 < b.significand)
    (ha : scale? (leftOf b).digits (leftOf b).exponent = some a) :
    reread x = if b.negative then -a else a := by
  rw [reread, h]
  dsimp only
  rw [if_neg hm.ne', ha]
  rfl

/-- **A float that was written is read as a float**, the one that `reread` says. -/
theorem numberValue?_chars (hx : FiniteFloat x) :
    ∃ n : Numeral, n.WellFormed ∧ n.chars = Notation.json.chars x ∧
      numberValue? (Notation.json.chars x) = some (.real (reread x)) := by
  obtain ⟨q, hq⟩ := hx
  obtain ⟨b, hb⟩ := ofFloat?_of_number hq
  rcases Nat.eq_zero_or_pos b.significand with hm | hm
  · obtain ⟨n, hwf, hchars, hvalue⟩ := chars_zero hb hm
    refine ⟨n, hwf, hchars, ?_⟩
    rw [← hchars, numberValue?, ofChars_chars hwf, hvalue, reread_zero hb hm]
  · obtain ⟨⟨hcanonical, he⟩, -⟩ := ofFloat?_number hb
    obtain ⟨n, hwf, hchars, hvalue⟩ := chars_real hb hm
    obtain ⟨a, ha, -⟩ := scale?_leftOf hm hcanonical he
    refine ⟨n, hwf, hchars, ?_⟩
    rw [← hchars, numberValue?, ofChars_chars hwf, hvalue, ha, reread_of_scale? hb hm ha]
    rfl

/-- **What is read is near**: a few units in the last place away, or a few of the least number. -/
theorem reread_near {q : ℚ} (hx : value? x = some (.number q)) :
    ∃ r, value? (reread x) = some (.number r) ∧
      |r - q| ≤ 2 ^ (-49 : ℤ) * |q| + 2 ^ (-1073 : ℤ) := by
  obtain ⟨b, hb⟩ := ofFloat?_of_number hx
  rcases Nat.eq_zero_or_pos b.significand with hm | hm
  · rw [reread_zero hb hm]
    refine ⟨q, hx, ?_⟩
    rw [sub_self, abs_zero]
    positivity
  · obtain ⟨⟨hcanonical, he⟩, hvalue⟩ := ofFloat?_number hb
    obtain ⟨a, ha, hscaled⟩ := scale?_leftOf hm hcanonical he
    have hcontains := (left_of_binary hm hcanonical he).contains
    obtain ⟨y, hy, hnear⟩ := hscaled.near (hcontains.rounds hm hcanonical)
    rw [reread_of_scale? hb hm ha]
    rw [hx, Option.some_inj, number_inj, number] at hvalue
    have hpos := finite_pos hm b.exponent
    cases hnegative : b.negative with
    | false =>
      rw [hnegative] at hvalue
      have hq : q = b.significand * 2 ^ b.exponent := hvalue
      rw [← hq] at hnear hpos
      exact ⟨y, hy, by rwa [abs_of_pos hpos]⟩
    | true =>
      rw [hnegative] at hvalue
      have hq : q = -(b.significand * 2 ^ b.exponent) := hvalue
      refine ⟨-y, value?_neg hy, ?_⟩
      rw [hq, abs_neg, abs_of_pos hpos, neg_sub_neg, abs_sub_comm]
      exact hnear

/-! ## Floats that do not drift -/

/-- Fifteen digits write the decimal, those before the point counted up to the ones, and no more
than 22 of them stand behind the point. -/
def shortDigits (d : Digits) : Bool :=
  d.digits * 10 ^ d.exponent.toNat < 10 ^ 15 && -22 ≤ d.exponent

/-- The float is zero, or a short decimal reads back to it. -/
def short (x : Float) : Bool :=
  match Binary.ofFloat? x with
  | none => false
  | some b => b.significand == 0 || shortDigits (b.shortest .toEven)

/-- A short decimal leaves a significand that needs no rounding, and a power of ten that is a
double. -/
theorem written_short {d : Digits} (hpos : 0 < d.digits) (h : shortDigits d = true) :
    ∃ n : ℕ, n ≤ 22 ∧ (written d).exponent = -(n : ℤ) ∧ 0 < n ∧
      value? (floatOfNat (written d).digits) = some (.number (written d).digits) := by
  obtain ⟨D, p⟩ := d
  obtain ⟨hdigits, hplaces⟩ := Bool.and_eq_true _ _ ▸ h
  have hdigits : D * 10 ^ p.toNat < 10 ^ 15 := of_decide_eq_true hdigits
  have hplaces : -22 ≤ p := of_decide_eq_true hplaces
  dsimp only at hpos
  rcases p with z | k
  · have hdigits : D * 10 ^ z < 10 ^ 15 := hdigits
    have hz : z < 15 := by
      rw [← Nat.pow_lt_pow_iff_right (show 1 < 10 by decide)]
      exact (Nat.le_mul_of_pos_left _ hpos).trans_lt hdigits
    have hlength : (Nat.toDigits 10 D).length ≤ 15 - z := by
      rw [Nat.length_toDigits_le_iff (by decide) (by omega)]
      refine Nat.lt_of_mul_lt_mul_right (a := 10 ^ z) ?_
      rwa [← pow_add, show 15 - z + z = 15 by omega]
    have hlength' := Nat.length_toDigits_pos (b := 10) (n := D)
    have hpositional : Notation.json.positional
        (Int.ofNat z + ((Nat.toDigits 10 D).length - 1)) = true := by
      refine Bool.and_eq_true _ _ ▸ ⟨decide_eq_true ?_, decide_eq_true ?_⟩
      · rw [Int.ofNat_eq_natCast]
        omega
      · rw [Int.ofNat_eq_natCast]
        omega
    rw [written, if_pos ⟨Int.natCast_nonneg z, hpositional⟩]
    refine ⟨1, by decide, rfl, one_pos, ?_⟩
    -- the zero after the point makes the significand even
    have heven : D * 10 ^ (z + 1) = 2 * (D * 10 ^ z * 5) := by ring
    show value? (floatOfNat (D * 10 ^ (z + 1))) = some (.number (D * 10 ^ (z + 1) : ℕ))
    rw [heven]
    exact floatOfNat_double (by omega)
  · have hdigits : D * 10 ^ 0 < 10 ^ 15 := hdigits
    have hbelow : ¬ (0 : ℤ) ≤ Int.negSucc k := by omega
    rw [written, if_neg (fun h => hbelow h.1)]
    refine ⟨k + 1, by omega, Int.negSucc_eq k, by omega, floatOfNat_exact ?_⟩
    show D < 2 ^ 53
    omega

/-- Scaled without any rounding but the last one, the decimal that is left gives the float. -/
theorem scale?_short (hm : 0 < b.significand) (hb : Canonical b.significand b.exponent)
    (he : b.exponent ≤ 971) (h : shortDigits (b.shortest .toEven) = true) :
    ∃ a, scale? (leftOf b).digits (leftOf b).exponent = some a ∧
      value? a = some (.number (b.significand * 2 ^ b.exponent)) := by
  obtain ⟨n, hn, hexponent, hn0, hdigits⟩ :=
    written_short ((Binary.shortest_hit hm .toEven).digits_pos hm) h
  obtain ⟨k, rfl⟩ : ∃ k, n = k + 1 := ⟨n - 1, by omega⟩
  have hleft : (leftOf b).exponent = Int.negSucc k := hexponent
  obtain ⟨y, hrounds, hvalue⟩ := div_number hdigits (powerOfTen_exact hn) (Nat.cast_nonneg _)
    (one_le_pow₀ (by norm_num))
  have hfloat := (left_of_binary hm hb he).contains.rounds hm hb
  rw [Digits.number, hleft, zpow_negSucc, ← div_eq_mul_inv] at hfloat
  refine ⟨_, by rw [hleft]; rfl, ?_⟩
  rw [scaleDown, if_pos (show k + 1 ≤ tableSize from hn.trans (by decide)),
    ← hrounds.unique hfloat]
  exact hvalue

/-- **Short floats do not drift.** -/
theorem reread_short (h : short x = true) : reread x = x := by
  rw [short] at h
  cases hb : Binary.ofFloat? x with
  | none =>
    rw [hb] at h
    cases h
  | some b =>
    rw [hb] at h
    dsimp only at h
    rcases Nat.eq_zero_or_pos b.significand with hm | hm
    · exact reread_zero hb hm
    · have hshort : shortDigits (b.shortest .toEven) = true := by
        rcases Bool.or_eq_true _ _ ▸ h with hzero | hshort
        · exact absurd (beq_iff_eq.mp hzero) hm.ne'
        · exact hshort
      obtain ⟨⟨hcanonical, he⟩, hvalue⟩ := ofFloat?_number hb
      obtain ⟨a, ha, hnumber⟩ := scale?_short hm hcanonical he hshort
      have hpos := finite_pos hm b.exponent
      rw [number] at hvalue
      rw [reread_of_scale? hb hm ha]
      cases hnegative : b.negative with
      | false =>
        rw [hnegative] at hvalue
        exact eq_of_number hnumber hvalue hpos.ne'
      | true =>
        rw [hnegative] at hvalue
        exact eq_of_number (value?_neg hnumber) hvalue (neg_ne_zero.mpr hpos.ne')

/-- One float came in place of another: the same one if that was short, and a near one in any case.
-/
structure Drift (x y : Float) : Prop where
  same : short x = true → y = x
  near : ∃ q r : ℚ, value? x = some (.number q) ∧ value? y = some (.number r) ∧
    |r - q| ≤ 2 ^ (-49 : ℤ) * |q| + 2 ^ (-1073 : ℤ)

theorem drift_reread (hx : FiniteFloat x) : Drift x (reread x) := by
  obtain ⟨q, hq⟩ := hx
  obtain ⟨r, hr, hnear⟩ := reread_near hq
  exact ⟨reread_short, q, r, hq, hr, hnear⟩

end VehiclePrivacy.Json
