import VehiclePrivacy.Proofs.Binary64.Conversion

/-!
# The operations keep the order

Exact results that are in order are rounded in that order (`Yields.le`), also where they are too
large and become infinite. So what holds of sums, differences, products and quotients of numbers
holds of the doubles that they are rounded to, if it is said with `≤`.

Of two operations the infinite case is needed as well. A padding is divided by the length of a
degree, which is a product with a cosine, and of that nothing is known but that it is not too small.
-/

namespace VehiclePrivacy.Binary64

open Float.Model Float.Model.UnpackedFloat

variable {a b c d e : Float} {x y z : ℚ}

/-! ## Differences -/

theorem apply_neg (s : Sign) (n : ℤ) : (-s).apply n = -s.apply n := by
  cases s with
  | negative => exact (neg_neg _).symm
  | positive => rfl

/-- A difference is the sum with one sign changed. -/
theorem sub_eq_add (u v : UnpackedFloat) :
    UnpackedFloat.sub .binary64 u v = UnpackedFloat.add .binary64 u v.neg := by
  cases u <;> cases v
  case finite.finite s m e hm s' m' e' hm' =>
    rw [UnpackedFloat.sub, UnpackedFloat.neg, UnpackedFloat.add]
    simp only [apply_neg, ← sub_eq_add_neg]
  all_goals rfl

theorem unpackedCanonical_neg {u : UnpackedFloat} (h : UnpackedCanonical u) :
    UnpackedCanonical u.neg := by
  cases u with
  | finite s m e hm => exact h
  | _ => trivial

theorem unpackedValue?_neg {u : UnpackedFloat} (h : unpackedValue? u = some (.number x)) :
    unpackedValue? u.neg = some (.number (-x)) := by
  rcases unpacked_of_number h with ⟨s, rfl, rfl⟩ | ⟨s, m, e, hm, rfl, rfl⟩
  · rw [neg_zero]
    rfl
  · cases s with
    | negative =>
      rw [signed, neg_neg]
      rfl
    | positive => rfl

/-- **The difference of two doubles** is their exact difference, rounded. -/
theorem sub_yields (ha : value? a = some (.number x)) (hb : value? b = some (.number y)) :
    Yields (x - y) (a - b) := by
  have hsum := add_unpacked_yields (unpackedCanonical a.toModel)
    (unpackedCanonical_neg (unpackedCanonical b.toModel)) ha (unpackedValue?_neg hb)
  rw [← sub_eq_add, ← sub_eq_add_neg] at hsum
  exact hsum.pack

/-! ## Order -/

/-- **Rounded results are in order** if the exact ones are. -/
theorem Yields.le (h : Yields x a) (h' : Yields y b) (hxy : x ≤ y) : a ≤ b := by
  obtain ⟨v, hv, ha⟩ := h
  obtain ⟨w, hw, hb⟩ := h'
  exact le_iff.mpr ⟨_, _, ha, hb, clamp_mono (hv.mono hw hxy)⟩

theorem yields_of_number (ha : value? a = some (.number x)) : Yields x a := by
  obtain ⟨hrounds, hsize, -⟩ := number_exact ha
  refine ⟨x, hrounds, ?_⟩
  rw [clamp_of_lt hsize]
  exact ha

theorem numbers_le_iff (ha : value? a = some (.number x)) (hb : value? b = some (.number y)) :
    a ≤ b ↔ x ≤ y := by
  rw [le_iff, ha, hb]
  constructor
  · rintro ⟨v, w, hv, hw, h⟩
    rw [← Option.some_inj.mp hv, ← Option.some_inj.mp hw] at h
    exact number_le.mp h
  · intro h
    exact ⟨_, _, rfl, rfl, number_le.mpr h⟩

theorem le_refl_of_isSome (h : (value? a).isSome = true) : a ≤ a := by
  obtain ⟨x, hx⟩ := Option.isSome_iff_exists.mp h
  exact le_iff.mpr ⟨x, x, hx, hx, le_rfl⟩

theorem doubles_le_of_lt (h : a < b) : a ≤ b := by
  obtain ⟨x, y, hx, hy, hxy⟩ := lt_iff.mp h
  exact le_iff.mpr ⟨x, y, hx, hy, hxy.le⟩

theorem doubles_le_of_not_lt (ha : (value? a).isSome = true) (hb : (value? b).isSome = true)
    (h : ¬ a < b) : b ≤ a := by
  obtain ⟨x, hx⟩ := Option.isSome_iff_exists.mp ha
  obtain ⟨y, hy⟩ := Option.isSome_iff_exists.mp hb
  refine le_iff.mpr ⟨y, x, hy, hx, ?_⟩
  by_contra hxy
  exact h (lt_iff.mpr ⟨x, y, hx, hy, not_le.mp hxy⟩)

theorem doubles_not_lt (h : a ≤ b) : ¬ b < a := by
  intro hlt
  obtain ⟨x, y, hx, hy, hxy⟩ := le_iff.mp h
  obtain ⟨y', x', hy', hx', hyx⟩ := lt_iff.mp hlt
  rw [hx, Option.some_inj] at hx'
  rw [hy, Option.some_inj] at hy'
  subst hx' hy'
  exact absurd hyx (not_lt.mpr hxy)

/-- A double is moved up and down by the smaller distance, and at least as far by the greater. -/
theorem moved_le (ha : value? a = some (.number x)) (hd : value? d = some (.number y))
    (he : value? e = some (.number z)) (hy : 0 ≤ y) (hyz : y ≤ z) :
    (a - e ≤ a - d ∧ a - d ≤ a) ∧ a ≤ a + d ∧ a + d ≤ a + e := by
  have hdown := sub_yields ha hd
  have hup := add_yields ha hd
  refine ⟨⟨?_, ?_⟩, ?_, ?_⟩
  · exact (sub_yields ha he).le hdown (by linarith)
  · exact hdown.le (yields_of_number ha) (by linarith)
  · exact (yields_of_number ha).le hup (by linarith)
  · exact hup.le (add_yields ha he) (by linarith)

/-! ## An infinite operand -/

theorem unpack_pack_infinity (s : Sign) :
    (Float.Model.pack (.infinity s)).unpack = .infinity s := by
  rw [unpack_pack_eq, UnpackedFloat.pack, packedInfinity, unpack_packComponents]
  rfl

/-- What is no less than a number is a number or infinite. -/
theorem number_or_infinite (hc : value? c = some (.number y)) (h : c ≤ d) :
    (∃ z, value? d = some (.number z) ∧ y ≤ z) ∨ d.toModel.unpack = .infinity .positive := by
  obtain ⟨v, w, hv, hw, hvw⟩ := le_iff.mp h
  obtain rfl : Value.number y = v := Option.some_inj.mp (hc.symm.trans hv)
  rcases unpacked_of_value hw with ⟨-, rfl⟩ | ⟨hinfinite, -⟩ | ⟨z, rfl⟩
  · exact absurd hvw (bot_lt_number y).not_ge
  · exact .inr hinfinite
  · exact .inl ⟨z, hw, number_le.mp hvw⟩

theorem le_infinite (ha : (value? a).isSome = true) (hb : b.toModel.unpack = .infinity .positive) :
    a ≤ b := by
  obtain ⟨v, hv⟩ := Option.isSome_iff_exists.mp ha
  exact le_iff.mpr ⟨v, _, hv, congrArg unpackedValue? hb, le_top⟩

theorem isSome_of_yields (h : Yields x a) : (value? a).isSome = true := by
  obtain ⟨y, -, hvalue⟩ := h
  rw [hvalue]
  rfl

/-- A product with a positive number grows with the other factor, which may be infinite. -/
theorem mul_le_mul_of_pos (ha : value? a = some (.number x)) (hx : 0 < x)
    (hc : value? c = some (.number y)) (h : c ≤ d) : a * c ≤ a * d := by
  have hproduct := mul_yields ha hc
  rcases number_or_infinite hc h with ⟨z, hd, hyz⟩ | hd
  · exact hproduct.le (mul_yields ha hd) (mul_le_mul_of_nonneg_left hyz hx.le)
  · refine le_infinite (isSome_of_yields hproduct) ?_
    have hmul : (a * d).toModel.unpack =
        (Float.Model.pack (UnpackedFloat.mul .binary64 a.toModel.unpack d.toModel.unpack)).unpack :=
      rfl
    rcases unpacked_of_number ha with ⟨s, hu, rfl⟩ | ⟨s, m, e, hm, hu, rfl⟩
    · exact absurd hx (lt_irrefl 0)
    · cases s with
      | negative => exact absurd hx (neg_lt_zero.mpr (finite_pos hm e)).not_gt
      | positive =>
        rw [hmul, hu, hd]
        exact unpack_pack_infinity .positive

/-- What is divided by an infinite double is zero. -/
theorem value?_div_infinite (ha : value? a = some (.number x))
    (hd : d.toModel.unpack = .infinity .positive) : value? (a / d) = some (.number 0) := by
  have hdiv : (a / d).toModel.unpack =
      (Float.Model.pack (UnpackedFloat.div .binary64 a.toModel.unpack d.toModel.unpack)).unpack :=
    rfl
  rw [value?, hdiv, hd]
  rcases unpacked_of_number ha with ⟨s, hu, -⟩ | ⟨s, m, e, hm, hu, -⟩
  · rw [hu]
    exact congrArg unpackedValue? (unpack_pack_zero _)
  · rw [hu]
    exact congrArg unpackedValue? (unpack_pack_zero _)

theorem value?_zero : value? 0 = some (.number 0) := congrArg unpackedValue? unpack_zero

theorem value?_one : value? 1 = some (.number 1) := by
  have hunpack : (1 : Float).toModel.unpack = .finite .positive (2 ^ 52) (-52) (by norm_num) := by
    with_unfolding_all rfl
  rw [value?, hunpack, unpackedValue?, signed]
  norm_num

/-- Quotients by no less than one are numbers, and in the order of what is divided. -/
theorem div_numbers (ha : value? a = some (.number x)) (hb : value? b = some (.number y))
    (hx : 0 ≤ x) (hxy : x ≤ y) (hd : 1 ≤ d) :
    ∃ p q, value? (a / d) = some (.number p) ∧ value? (b / d) = some (.number q) ∧ 0 ≤ p ∧
      p ≤ q := by
  rcases number_or_infinite value?_one hd with ⟨z, hd, hz⟩ | hd
  · obtain ⟨p, hp, hap⟩ := div_number ha hd hx hz
    obtain ⟨q, hq, hbq⟩ := div_number hb hd (hx.trans hxy) hz
    have hpos : 0 ≤ z := zero_le_one.trans hz
    exact ⟨p, q, hap, hbq, hp.nonneg (div_nonneg hx hpos),
      hp.mono hq (div_le_div_of_nonneg_right hxy hpos)⟩
  · exact ⟨0, 0, value?_div_infinite ha hd, value?_div_infinite hb hd, le_rfl, le_rfl⟩

/-- What is not NaN has a value. -/
theorem isSome_value?_iff : (value? a).isSome = !a.isNaN := by
  have hnan : a.isNaN = a.toModel.unpack.isNaN := rfl
  rw [hnan, value?]
  cases a.toModel.unpack with
  | infinity s => cases s <;> rfl
  | _ => rfl

end VehiclePrivacy.Binary64
