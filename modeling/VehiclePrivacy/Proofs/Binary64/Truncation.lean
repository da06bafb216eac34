import Mathlib.Algebra.Order.Floor.Ring
import Mathlib.Data.Rat.Floor
import VehiclePrivacy.Proofs.Binary64.Conversion

/-!
# Doubles as integers

A double is converted to an integer of one machine word toward zero, and what is out of range is
clamped (`toInt64_of_number`). So a whole number in range is converted exactly, and converted back
exactly (`toInt64_of_whole`, `value?_ofInt64`). A double is read as a whole number just if the
number that it stands for is one (`wholeNumber?_iff`).
-/

namespace VehiclePrivacy.Binary64

open Float.Model Float.Model.UnpackedFloat Decimal

variable {a : Float} {x q : ℚ} {em : ExtendedMantissa} {i : ℤ}

/-! ## Truncation -/

/-- The number without its fraction. -/
def truncated (x : ℚ) : ℤ := if 0 ≤ x then ⌊x⌋ else ⌈x⌉

theorem truncated_intCast (i : ℤ) : truncated i = i := by
  rw [truncated, Int.floor_intCast, Int.ceil_intCast, ite_self]

theorem truncated_signed (s : Sign) (hq : 0 ≤ q) : truncated (signed s q) = s.apply ⌊q⌋ := by
  cases s with
  | positive => exact if_pos hq
  | negative =>
    show truncated (-q) = -⌊q⌋
    rcases hq.eq_or_lt with rfl | hpos
    · rfl
    · rw [truncated, if_neg (by linarith), Int.ceil_neg]

/-- What is cut off a mantissa is less than one. -/
theorem Represents.floor (h : Represents em q) : ⌊q⌋ = em.mantissa := by
  have hlow := Describes.nonneg h
  have hhigh := Describes.lt_one h
  exact Int.floor_eq_iff.mpr ⟨by push_cast; linarith, by push_cast; linarith⟩

theorem roundToInt_eq (s : Sign) (m : ℕ) (e : ℤ) :
    roundToInt s m e = s.apply ⌊(m : ℚ) * 2 ^ e⌋ := by
  -- shifted up to the ones first, if the exponent is positive, and then down to them
  obtain ⟨em, hem, hrepresents⟩ := shift_represents (m := m * 2 ^ (e - 0).toNat)
    (e := e - (e - 0).toNat) (t := 0) (show Describes .exact 0 from rfl) (by omega)
  rw [add_zero, shiftLeft_value, zpow_zero, div_one] at hrepresents
  rw [roundToInt, decreaseExponent_eq]
  dsimp only
  rw [hem, ← hrepresents.floor]

theorem toInt_of_number (h : value? a = some (.number x)) (low high : ℤ) :
    a.toModel.unpack.toInt low high = truncated x := by
  rcases unpacked_of_number h with ⟨s, hu, rfl⟩ | ⟨s, m, e, hm, hu, rfl⟩
  · rw [hu]
    rfl
  · rw [hu, truncated_signed s (finite_pos hm e).le]
    exact roundToInt_eq s m e

/-! ## One machine word -/

/-- **A number is converted toward zero**, and clamped where it is out of range. -/
theorem toInt64_of_number (h : value? a = some (.number x)) :
    a.toModel.toInt64 = Int64.ofIntClamp (truncated x) :=
  congrArg Int64.ofIntClamp (toInt_of_number h _ _)

/-- What is in range is not clamped. -/
theorem toInt_ofIntClamp (hlow : -2 ^ 63 ≤ i) (hhigh : i < 2 ^ 63) :
    (Int64.ofIntClamp i).toInt = i := by
  have hmin : Int64.minValue.toInt ≤ i := Int64.toInt_minValue ▸ hlow
  have hmax : i ≤ Int64.maxValue.toInt := Int64.toInt_maxValue ▸ Int.le_sub_one_of_lt hhigh
  rw [Int64.ofIntClamp, dif_pos hmin, dif_pos hmax]
  exact Int64.toInt_ofInt_of_le hlow hhigh

/-- **A whole number in range** is converted exactly. -/
theorem toInt64_of_whole (h : value? a = some (.number i)) (hlow : -2 ^ 63 ≤ i)
    (hhigh : i < 2 ^ 63) : a.toModel.toInt64.toInt = i := by
  rw [toInt64_of_number h, truncated_intCast, toInt_ofIntClamp hlow hhigh]

/-- A machine word is rounded. -/
theorem ofInt64_yields (w : Int64) : Yields w.toInt (.ofModel (.ofInt64 w)) := by
  have h := normalize_yields w.toInt 0 .positive
  rw [zpow_zero, mul_one] at h
  exact h.pack

/-- A machine word that a double stands for is converted back to that number. -/
theorem value?_ofInt64 {w : Int64} (h : value? a = some (.number w.toInt)) :
    value? (.ofModel (.ofInt64 w)) = some (.number w.toInt) := by
  obtain ⟨hrounds, hsize, -⟩ := number_exact h
  obtain ⟨y, hy, hvalue⟩ := ofInt64_yields w
  rw [hvalue, hy.unique hrounds, clamp_of_lt hsize]

/-- The largest machine word is rounded up, to the first number out of range. -/
theorem value?_maxValue :
    value? (.ofModel (.ofInt64 Int64.maxValue)) = some (.number (2 ^ 63)) := by
  have hwhole : wholeNumber? (.ofModel (.ofInt64 Int64.maxValue)) = some (2 ^ 63) := by
    decide +kernel
  rw [value?_of_wholeNumber? hwhole]
  norm_num

theorem value?_abs (h : value? a = some (.number x)) : value? a.abs = some (.number |x|) := by
  have hcanonical := unpackedCanonical a.toModel
  have hresults : Results a.toModel.unpack.abs |x| := by
    rcases unpacked_of_number h with ⟨s, hu, rfl⟩ | ⟨s, m, e, hm, hu, rfl⟩
    · rw [hu]
      exact ⟨trivial, abs_zero⟩
    · rw [hu] at hcanonical ⊢
      have habs : |signed s (m * 2 ^ e)| = m * 2 ^ e := abs_signed s (finite_pos hm e).le
      exact ⟨hcanonical, habs⟩
  have hsize : |(|x|)| < overflow := by
    rw [abs_abs]
    exact (number_exact h).2.1
  show unpackedValue? (Float.Model.pack a.toModel.unpack.abs).unpack = _
  rw [value?_pack hresults, clamp_of_lt hsize]

/-- So to be below it in magnitude is to be in range, but for the least machine word. -/
theorem abs_lt_maxValue_iff (h : value? a = some (.number x)) :
    a.abs < .ofModel (.ofInt64 Int64.maxValue) ↔ |x| < 2 ^ 63 := by
  rw [lt_iff, value?_abs h, value?_maxValue]
  refine ⟨?_, fun hlt => ⟨_, _, rfl, rfl, number_lt.mpr hlt⟩⟩
  rintro ⟨_, _, hx, hlimit, hlt⟩
  obtain rfl := Option.some.inj hx
  obtain rfl := Option.some.inj hlimit
  exact number_lt.mp hlt

/-! ## Whole numbers -/

theorem natAbs?_of_magnitude {b : Binary} {n : ℕ}
    (h : (b.significand : ℚ) * 2 ^ b.exponent = n) : b.natAbs? = some n := by
  rw [Binary.natAbs?]
  split
  · rename_i e he
    rw [he, Int.ofNat_eq_natCast, zpow_natCast] at h
    exact congrArg some (by exact_mod_cast h)
  · rename_i e he
    rw [he, zpow_negSucc, ← div_eq_mul_inv, div_eq_iff (by positivity)] at h
    have hn : b.significand = n * 2 ^ (e + 1) := by exact_mod_cast h
    show (if b.significand % 2 ^ (e + 1) = 0 then some (b.significand / 2 ^ (e + 1)) else none) = _
    rw [hn, if_pos (Nat.mul_mod_left _ _), Nat.mul_div_cancel _ (by positivity)]

/-- **A double is read as a whole number** just if it stands for one. -/
theorem wholeNumber?_iff : wholeNumber? a = some i ↔ value? a = some (.number i) := by
  refine ⟨value?_of_wholeNumber?, fun h => ?_⟩
  obtain ⟨b, hb⟩ := ofFloat?_of_number h
  have hnumber : number b = i :=
    number_inj.mp (Option.some.inj ((ofFloat?_number hb).2.symm.trans h))
  -- sign and magnitude are those of the integer; a zero may have either sign
  have hpos : (0 : ℚ) ≤ b.significand * 2 ^ b.exponent := by positivity
  have hmagnitude : (b.significand : ℚ) * 2 ^ b.exponent = i.natAbs := by
    rw [Nat.cast_natAbs, Int.cast_abs, ← hnumber, number, abs_signed _ hpos]
  have hsigned : ((if b.negative then -(i.natAbs : ℤ) else i.natAbs : ℤ) : ℚ) = number b := by
    rw [number, hmagnitude]
    cases b.negative <;> simp [signed]
  rw [wholeNumber?, hb, Option.bind_some, Binary.toInt?, natAbs?_of_magnitude hmagnitude]
  exact congrArg some (Int.cast_injective (hsigned.trans hnumber))

end VehiclePrivacy.Binary64
