import VehiclePrivacy.Redaction.Dimensions
import VehiclePrivacy.Proofs.Binary64.Truncation

/-!
# The number that dimensions are overwritten with

A whole number is written as an integer if it is below `2 ^ 63` in magnitude, and any other finite
number as a double. Either way the number in the message is the one that was given, with nothing
rounded or clamped (`SizeRule.exact_of_isFinite`). There is none for NaN and the infinities
(`SizeRule.value_eq_null_iff`).
-/

namespace VehiclePrivacy

open Binary64

/-- The number is exactly this one. -/
def Number.Is : Number → ℚ → Prop
  | .integer i, x => i = x
  | .real y, x => value? y = some (.number x)

namespace SizeRule

variable {r : SizeRule} {x : ℚ} {i : ℤ} {n : Number}

/-- What is written for a double that stands for `x`. -/
structure Exact (r : SizeRule) (x : ℚ) (n : Number) : Prop where
  number : value? r.number = some (.number x)
  value : r.value = .scalar (.number n)
  is : n.Is x
  /-- Read as a double, the number is still the same. -/
  toFloat : value? n.toFloat = some (.number x)
  integer_iff : (∃ i, n = .integer i) ↔ (∃ i : ℤ, x = i) ∧ |x| < 2 ^ 63
  /-- The limit may be asked for by a comparison with the largest machine word, as a double. -/
  limit : r.number.abs < .ofModel (.ofInt64 Int64.maxValue) ↔ |x| < 2 ^ 63
  /-- The conversion to a machine word gives the integer, and can be undone. -/
  word : ∀ i, n = .integer i → r.number.toModel.toInt64.toInt = i ∧
    value? (.ofModel (.ofInt64 r.number.toModel.toInt64)) = some (.number x)

theorem abs_intCast_lt : |(i : ℚ)| < 2 ^ 63 ↔ i.natAbs < 2 ^ 63 := by
  rw [← Int.cast_abs, ← Nat.cast_natAbs]
  exact_mod_cast Iff.rfl

theorem value_of_word (h : value? r.number = some (.number i)) (hi : i.natAbs < 2 ^ 63) :
    r.value = .integer i := by
  rw [value, wholeNumber?_iff.mpr h]
  exact if_pos hi

theorem value_of_no_word (h : value? r.number = some (.number x))
    (hx : ∀ i : ℤ, x = i → ¬ i.natAbs < 2 ^ 63) : r.value = .real r.number := by
  have hreal : Json.ofFloat r.number = .real r.number := if_pos (isFinite_of_number h)
  rw [value]
  split
  · rename_i i hi
    have hxi : x = i := number_inj.mp (Option.some.inj (h.symm.trans (wholeNumber?_iff.mp hi)))
    exact (if_neg (hx i hxi)).trans hreal
  · exact hreal

theorem exact_integer (h : value? r.number = some (.number i)) (hi : i.natAbs < 2 ^ 63) :
    r.Exact i (.integer i) := by
  have hword : r.number.toModel.toInt64.toInt = i := toInt64_of_whole h (by omega) (by omega)
  refine ⟨h, value_of_word h hi, rfl, value?_floatOfInt (wholeNumber?_iff.mpr h) (by omega),
    ⟨fun _ => ⟨⟨i, rfl⟩, abs_intCast_lt.mpr hi⟩, fun _ => ⟨i, rfl⟩⟩, abs_lt_maxValue_iff h,
    fun j hj => ?_⟩
  obtain rfl := Number.integer.inj hj
  have hback := value?_ofInt64 (w := r.number.toModel.toInt64) (a := r.number)
  rw [hword] at hback
  exact ⟨hword, hback h⟩

theorem exact_real (h : value? r.number = some (.number x))
    (hx : ∀ i : ℤ, x = i → ¬ i.natAbs < 2 ^ 63) : r.Exact x (.real r.number) := by
  refine ⟨h, value_of_no_word h hx, h, h, ⟨nofun, ?_⟩, abs_lt_maxValue_iff h, nofun⟩
  rintro ⟨⟨i, rfl⟩, hsize⟩
  exact absurd (abs_intCast_lt.mp hsize) (hx i rfl)

theorem Exact.beq (h : r.Exact x n) : (n.toFloat == r.number) = true :=
  beq_of_value h.toFloat h.number

theorem Exact.natAbs_lt (h : r.Exact x (.integer i)) : i.natAbs < 2 ^ 63 := by
  have hi : (i : ℚ) = x := h.is
  exact abs_intCast_lt.mp (hi ▸ (h.integer_iff.mp ⟨i, rfl⟩).2)

/-- **The number in a message is exact.** -/
theorem exact_of_isFinite (h : r.number.isFinite = true) : ∃ x n, r.Exact x n := by
  obtain ⟨x, h⟩ := number_of_isFinite h
  by_cases hword : ∃ i : ℤ, x = i ∧ i.natAbs < 2 ^ 63
  · obtain ⟨i, rfl, hi⟩ := hword
    exact ⟨_, _, exact_integer h hi⟩
  · exact ⟨_, _, exact_real h fun i hxi hi => hword ⟨i, hxi, hi⟩⟩

/-- **There is no number** for NaN and the infinities. -/
theorem value_eq_null_iff : r.value = .null ↔ r.number.isFinite = false := by
  constructor
  · intro h
    rw [← Bool.not_eq_true]
    intro hfinite
    obtain ⟨x, n, hn⟩ := exact_of_isFinite hfinite
    cases hn.value.symm.trans h
  · intro h
    have hnull : Json.ofFloat r.number = .null := if_neg (by simp [h])
    rw [value]
    split
    · rename_i i hi
      rw [isFinite_of_number (wholeNumber?_iff.mp hi)] at h
      cases h
    · exact hnull

end SizeRule

end VehiclePrivacy
