import VehiclePrivacy.Json.Numeral
import VehiclePrivacy.Proofs.Binary64.Arithmetic

/-!
# Products, whole numbers and powers of ten

What the conversion of decimals rests on. Products, whole numbers below `2 ^ 64`, decimals and the
table of powers of ten are rounded correctly (`mul_yields`, `floatOfNat_yields`,
`ofScientific_yields`, `powerOfTen_yields`), and what lies between two numbers that rounding keeps
is rounded between them (`Yields.between`). A double other than zero is known by its number
(`eq_of_number`), and its parts are those of `Binary.ofFloat?` (`ofFloat?_number`).
-/

namespace VehiclePrivacy.Binary64

open Float.Model Float.Model.UnpackedFloat

variable {a b : Float} {x y z : ℚ} {m m' : ℕ} {e e' : ℤ}

/-! ## Products -/

theorem signed_mul_signed (s s' : Sign) (x y : ℚ) :
    signed s x * signed s' y = signed (s * s') (x * y) := by
  cases s <;> cases s'
  · exact neg_mul_neg x y
  · exact neg_mul x y
  · exact mul_neg x y
  · rfl

/-- A product has bits enough if one of its factors has, or if its exponent is small. -/
theorem le_target_mul (hm : 0 < m) (hm' : 0 < m')
    (h : 2 ^ 52 ≤ m ∨ 2 ^ 52 ≤ m' ∨ e + e' ≤ -1074) : e + e' ≤ target (m * m') (e + e') := by
  rw [target_eq]
  have hlog : ∀ {n n' : ℕ}, 2 ^ 52 ≤ n → 0 < n' → 52 ≤ (n * n').log2 := by
    intro n n' hn hn'
    rw [Nat.le_log2 (by positivity)]
    exact hn.trans (Nat.le_mul_of_pos_right n hn')
  rcases h with h | h | h
  · have := hlog h hm'
    omega
  · have := hlog h hm
    rw [mul_comm] at this
    omega
  · omega

theorem mul_finite_yields {s s' : Sign} (hm : 0 < m) (hm' : 0 < m')
    (h : 2 ^ 52 ≤ m ∨ 2 ^ 52 ≤ m' ∨ e + e' ≤ -1074) :
    UnpackedYields (signed s (m * 2 ^ e) * signed s' (m' * 2 ^ e'))
      (UnpackedFloat.mul .binary64 (.finite s m e hm) (.finite s' m' e' hm')) := by
  have hvalue : (m : ℚ) * 2 ^ e * (m' * 2 ^ e') = ((m * m' : ℕ) + 0) * 2 ^ (e + e') := by
    rw [two_zpow_add, add_zero]
    push_cast
    ring
  rw [signed_mul_signed, hvalue]
  exact roundWithAccuracy_yields _ (show Describes .exact 0 from rfl) (le_target_mul hm hm' h)

theorem mul_unpacked_yields {u v : UnpackedFloat} (hu : UnpackedCanonical u)
    (hv : UnpackedCanonical v) (hx : unpackedValue? u = some (.number x))
    (hy : unpackedValue? v = some (.number y)) :
    UnpackedYields (x * y) (UnpackedFloat.mul .binary64 u v) := by
  rcases unpacked_of_number hx with ⟨s, rfl, rfl⟩ | ⟨s, m, e, hm, rfl, rfl⟩
  · rw [zero_mul]
    rcases unpacked_of_number hy with ⟨s', rfl, -⟩ | ⟨s', m', e', hm', rfl, -⟩ <;>
      exact zero_yields _
  · rcases unpacked_of_number hy with ⟨s', rfl, rfl⟩ | ⟨s', m', e', hm', rfl, rfl⟩
    · rw [mul_zero]
      exact zero_yields _
    · have hcanonical : Canonical m e := hu
      have hcanonical' : Canonical m' e' := hv
      have hleast := hcanonical.least
      have hleast' := hcanonical'.least
      refine mul_finite_yields hm hm' ?_
      rcases hcanonical.tight with he | hbits
      · rcases hcanonical'.tight with he' | hbits'
        · exact .inr (.inr (by omega))
        · exact .inr (.inl hbits')
      · exact .inl hbits

/-- **The product of two doubles** is their exact product, rounded. -/
theorem mul_yields (ha : value? a = some (.number x)) (hb : value? b = some (.number y)) :
    Yields (x * y) (a * b) :=
  (mul_unpacked_yields (unpackedCanonical _) (unpackedCanonical _) ha hb).pack

/-! ## Rounding between bounds -/

/-- What lies between two numbers that stay is rounded between them. -/
theorem Yields.between (h : Yields x a) {low high : ℚ} (hlow : Rounds low low)
    (hhigh : Rounds high high) (hlx : low ≤ x) (hxh : x ≤ high) (hlow' : -overflow < low)
    (hhigh' : high < overflow) :
    ∃ y, Rounds x y ∧ value? a = some (.number y) ∧ low ≤ y ∧ y ≤ high := by
  obtain ⟨y, hrounds, hvalue⟩ := h
  have hly := hlow.mono hrounds hlx
  have hyh := hrounds.mono hhigh hxh
  rw [clamp_of_lt (abs_lt.mpr ⟨hlow'.trans_le hly, hyh.trans_lt hhigh'⟩)] at hvalue
  exact ⟨y, hrounds, hvalue, hly, hyh⟩

/-- A number that is divided by no less than one stays a number. -/
theorem div_number (ha : value? a = some (.number x)) (hb : value? b = some (.number y))
    (hx : 0 ≤ x) (hy : 1 ≤ y) : ∃ z, Rounds (x / y) z ∧ value? (a / b) = some (.number z) := by
  obtain ⟨hrounds, hsize, -⟩ := number_exact ha
  obtain ⟨z, hz, hvalue, -⟩ := (div_yields ha hb (one_pos.trans_le hy).ne').between
    rounds_zero hrounds (div_nonneg hx (zero_le_one.trans hy)) (div_le_self hx hy)
    (neg_lt_zero.mpr overflow_pos) (abs_lt.mp hsize).2
  exact ⟨z, hz, hvalue⟩

/-- What has a value and is not infinite is a number. -/
theorem number_of_not_isInf {v : Value} (h : value? a = some v) (hfinite : a.isInf = false) :
    ∃ y, v = .number y := by
  have hinf : a.toModel.unpack.isInf = false := hfinite
  rcases unpacked_of_value h with ⟨hu, -⟩ | ⟨hu, -⟩ | hnumber
  · rw [hu] at hinf
    cases hinf
  · rw [hu] at hinf
    cases hinf
  · exact hnumber

/-- A result that is not infinite is what the number is rounded to. -/
theorem Yields.number (h : Yields x a) (hfinite : a.isInf = false) :
    ∃ y, Rounds x y ∧ value? a = some (.number y) := by
  obtain ⟨y, hrounds, hvalue⟩ := h
  obtain ⟨z, hz⟩ := number_of_not_isInf hvalue hfinite
  refine ⟨y, hrounds, ?_⟩
  rw [hvalue]
  rw [clamp] at hz ⊢
  split at hz
  · exact absurd hz (number_lt_top z).ne'
  · split at hz
    · exact absurd hz (bot_lt_number z).ne
    · rename_i hhigh hlow
      rw [if_neg hhigh, if_neg hlow]

theorem isInf_of_number (h : value? a = some (.number x)) : a.isInf = false := by
  have hinf : a.isInf = a.toModel.unpack.isInf := rfl
  rw [hinf]
  rcases unpacked_of_number h with ⟨s, hu, -⟩ | ⟨s, m, e, hm, hu, -⟩ <;> rw [hu] <;> rfl

/-! ## Signs and identity -/

theorem ext_unpack (h : a.toModel.unpack = b.toModel.unpack) : a = b := by
  obtain ⟨⟨a, ha⟩⟩ := a
  obtain ⟨⟨b, hb⟩⟩ := b
  have hbits : a.toBitVec = b.toBitVec := (unpack_inj_of_valid ha hb).mp h
  obtain rfl : a = b := UInt64.toBitVec_inj.mp hbits
  rfl

/-- A double other than zero is known by its number. -/
theorem eq_of_number (ha : value? a = some (.number x)) (hb : value? b = some (.number x))
    (hx : x ≠ 0) : a = b := by
  have hcanonical := unpackedCanonical a.toModel
  have hcanonical' := unpackedCanonical b.toModel
  rcases unpacked_of_number ha with ⟨s, -, rfl⟩ | ⟨s, m, e, hm, hu, rfl⟩
  · exact absurd rfl hx
  rcases unpacked_of_number hb with ⟨s', -, h0⟩ | ⟨s', m', e', hm', hu', hvalue⟩
  · exact absurd h0 hx
  rw [hu] at hcanonical
  rw [hu'] at hcanonical'
  have hpos := finite_pos hm e
  have hpos' := finite_pos hm' e'
  have hsign : s = s' ∧ (m : ℚ) * 2 ^ e = m' * 2 ^ e' := by
    cases s <;> cases s' <;> simp only [signed] at hvalue
    · exact ⟨rfl, neg_injective hvalue⟩
    · linarith
    · linarith
    · exact ⟨rfl, hvalue⟩
  obtain ⟨rfl, hmagnitude⟩ := hsign
  -- canonical forms that are compared as equal are equal
  have hcompares := Canonical.compares hcanonical hcanonical'
  have hequal : (compare e e').then (compare m m') = .eq := by
    rw [hmagnitude] at hcompares
    exact hcompares.eq_eq.mpr rfl
  obtain ⟨he, hm⟩ := Ordering.then_eq_eq.mp hequal
  refine ext_unpack ?_
  rw [hu, hu']
  exact finite_congr (Nat.compare_eq_eq.mp hm) (compare_eq_iff_eq.mp he)

theorem value?_neg (h : value? a = some (.number x)) : value? (-a) = some (.number (-x)) := by
  have hmodel : -a = .ofModel (Float.Model.pack a.toModel.unpack.neg) := rfl
  have hcanonical := unpackedCanonical a.toModel
  have hresults : Results a.toModel.unpack.neg (-x) := by
    rcases unpacked_of_number h with ⟨s, hu, rfl⟩ | ⟨s, m, e, hm, hu, rfl⟩
    · rw [hu]
      exact ⟨trivial, neg_zero⟩
    · rw [hu] at hcanonical ⊢
      refine ⟨hcanonical, ?_⟩
      cases s with
      | negative => exact neg_neg _
      | positive => rfl
  have hsize : |-x| < overflow := by
    rw [abs_neg]
    exact (number_exact h).2.1
  rw [hmodel]
  show unpackedValue? (Float.Model.pack _).unpack = _
  rw [value?_pack hresults, clamp_of_lt hsize]

theorem unpack_zero : (0 : Float).toModel.unpack = .zero .positive := by
  with_unfolding_all rfl

/-- Only zeros are equal to zero. -/
theorem beq_zero_eq_false (h : value? a = some (.number x)) (hx : x ≠ 0) : (a == 0) = false := by
  have hbeq : (a == 0) = a.toModel.unpack.beq (0 : Float).toModel.unpack := rfl
  rw [hbeq, Bool.eq_false_iff]
  intro hequal
  obtain ⟨-, -, hcases⟩ := (UnpackedFloat.beq_iff_ne_notANumber_and_eq _ _).mp hequal
  rcases unpacked_of_number h with ⟨s, -, rfl⟩ | ⟨s, m, e, hm, hu, -⟩
  · exact hx rfl
  · rw [unpack_zero, hu] at hcases
    simp at hcases

/-! ## Whole numbers -/

theorem ofNat_yields (n : ℕ) : UnpackedYields n (UnpackedFloat.ofNat .binary64 n) := by
  have h := normalize_yields n 0 .positive
  rwa [zpow_zero, mul_one, Int.cast_natCast] at h

open Decimal in
/-- **A whole number** below `2 ^ 64` is rounded. -/
theorem floatOfNat_yields {n : ℕ} (hn : n < 2 ^ 64) : Yields n (floatOfNat n) := by
  have h := (ofNat_yields n).pack
  have hnat : n.toUInt64.toNat = n := by
    show n % 2 ^ 64 = n
    exact Nat.mod_eq_of_lt hn
  have hmodel : floatOfNat n = .ofModel (Float.Model.pack (UnpackedFloat.ofNat .binary64 n)) := by
    conv_rhs => rw [← hnat]
    rfl
  rwa [hmodel]

/-- Whole numbers of up to 53 bits are doubles. -/
theorem rounds_nat {n : ℕ} (hn : n < 2 ^ 53) : Rounds n n := by
  rcases Nat.eq_zero_or_pos n with rfl | hpos
  · exact Nat.cast_zero (R := ℚ) ▸ rounds_zero
  · -- shifted up until all 53 bits are in use
    have hlow := Nat.log2_self_le hpos.ne'
    have hhigh : n < 2 ^ (n.log2 + 1) := Nat.lt_log2_self
    have hlog : n.log2 < 53 := (Nat.log2_lt hpos.ne').mpr hn
    obtain ⟨k, hk⟩ : ∃ k, n.log2 + k = 52 := ⟨52 - n.log2, by omega⟩
    have hcanonical : Canonical (n * 2 ^ k) (-k) := by
      refine ⟨?_, by omega, .inr ?_⟩
      · calc n * 2 ^ k < 2 ^ (n.log2 + 1) * 2 ^ k := by gcongr
          _ = 2 ^ 53 := by rw [← pow_add, show n.log2 + 1 + k = 53 by omega]
      · calc 2 ^ 52 = 2 ^ n.log2 * 2 ^ k := by rw [← pow_add, hk]
          _ ≤ n * 2 ^ k := by gcongr
    have hvalue : ((n * 2 ^ k : ℕ) : ℚ) * 2 ^ (-k : ℤ) = n := by
      rw [zpow_neg, zpow_natCast]
      push_cast
      rw [mul_assoc, mul_inv_cancel₀ (by positivity), mul_one]
    exact hvalue ▸ hcanonical.rounds

/-- A whole number below `2 ^ 64` is rounded to a number. -/
theorem floatOfNat_number {n : ℕ} (hn : n < 2 ^ 64) :
    ∃ f, Rounds n f ∧ value? (Decimal.floatOfNat n) = some (.number f) := by
  have hbound : Canonical (2 ^ 52) 12 := ⟨by norm_num, by norm_num, .inr le_rfl⟩
  have hlimit : ((2 ^ 52 : ℕ) : ℚ) * 2 ^ (12 : ℤ) = 2 ^ 64 := by norm_num
  have hle : (n : ℚ) ≤ 2 ^ 64 := by exact_mod_cast hn.le
  obtain ⟨f, hrounds, hvalue, -⟩ := (floatOfNat_yields hn).between rounds_zero
    (hlimit ▸ hbound.rounds) (Nat.cast_nonneg n) hle (neg_lt_zero.mpr overflow_pos)
    (hlimit ▸ hbound.lt_overflow (by norm_num))
  exact ⟨f, hrounds, hvalue⟩

/-- Whole numbers of up to 53 bits are exact. -/
theorem floatOfNat_exact {n : ℕ} (hn : n < 2 ^ 53) :
    value? (Decimal.floatOfNat n) = some (.number n) := by
  obtain ⟨f, hrounds, hvalue⟩ := floatOfNat_number (hn.trans (by norm_num))
  rwa [hrounds.unique (rounds_nat hn)] at hvalue

/-- Even numbers may have one more bit. -/
theorem floatOfNat_double {n : ℕ} (hn : n < 2 ^ 53) :
    value? (Decimal.floatOfNat (2 * n)) = some (.number (2 * n : ℕ)) := by
  obtain ⟨-, -, hdouble⟩ := number_exact (floatOfNat_exact hn)
  obtain ⟨f, hrounds, hvalue⟩ := floatOfNat_number (n := 2 * n) (by omega)
  rw [Nat.cast_mul, Nat.cast_ofNat] at hrounds ⊢
  rwa [hrounds.unique hdouble] at hvalue

/-! ## The parts of a double -/

open Decimal

theorem fractionField_eq (bits : UInt64) :
    Binary.fractionField bits = (@unpackMantissa .binary64 bits.toBitVec).toNat := by
  show bits.toNat % 2 ^ 52 = (BitVec.extractLsb 51 0 bits.toBitVec).toNat
  rw [BitVec.extractLsb_toNat]
  rfl

theorem exponentField_eq (bits : UInt64) :
    Binary.exponentField bits = (@unpackExponent .binary64 bits.toBitVec).toNat := by
  show bits.toNat / 2 ^ 52 % 2 ^ 11 = (BitVec.extractLsb 62 52 bits.toBitVec).toNat
  rw [BitVec.extractLsb_toNat, Nat.shiftRight_eq_div_pow]
  rfl

theorem signField_eq (bits : UInt64) :
    Binary.signField bits =
      (Sign.ofBitVec (@unpackSign .binary64 bits.toBitVec) == .negative) := by
  have hbit : ∀ v : BitVec 1, (v.toNat == 1) = (Sign.ofBitVec v == .negative) := by decide
  rw [← hbit]
  show (bits.toNat / 2 ^ 63 % 2 == 1) = ((BitVec.extractLsb 63 63 bits.toBitVec).toNat == 1)
  rw [BitVec.extractLsb_toNat, Nat.shiftRight_eq_div_pow]
  rfl

/-- The parts that the bits of an unpacked double are read as. -/
def binaryOf? : UnpackedFloat → Option Binary
  | .finite s m e _ => some ⟨s == .negative, m, e⟩
  | .zero s => some ⟨s == .negative, 0, -1074⟩
  | _ => none

theorem ofFloat?_eq (a : Float) : Binary.ofFloat? a = binaryOf? a.toModel.unpack := by
  have hbits : a.toBits = a.toModel.toBits := rfl
  rw [Float.Model.unpack, unpack_eq, Binary.ofFloat?, hbits, fractionField_eq, exponentField_eq,
    signField_eq]
  generalize Sign.ofBitVec _ = s
  generalize unpackExponent _ = exponent
  generalize unpackMantissa _ = mantissa
  dsimp only at exponent mantissa
  have hexponent : exponent.toNat < 2048 := exponent.isLt
  by_cases hlow : exponent.toNat = 0
  · obtain rfl : exponent = 0#11 := BitVec.eq_of_toNat_eq hlow
    rw [hlow, assemble, if_neg (by decide), if_pos rfl]
    dsimp only
    split
    · rename_i hzero
      subst hzero
      rfl
    · rfl
  · by_cases hhigh : exponent.toNat = 2047
    · obtain rfl : exponent = -1#11 := BitVec.eq_of_toNat_eq hhigh
      rw [hhigh, assemble, if_pos rfl]
      show none = _
      split <;> rfl
    · rw [assemble_normal _ ⟨by omega, by omega⟩]
      obtain ⟨k, hk⟩ := Nat.exists_eq_succ_of_ne_zero hlow
      have hne : k ≠ 2046 := by omega
      simp only [hk, binaryOf?, Option.some_inj, Binary.mk.injEq, true_and]
      exact ⟨rfl, by omega⟩

/-- The number that the parts of a double write. -/
def number (b : Binary) : ℚ :=
  signed (if b.negative then .negative else .positive) (b.significand * 2 ^ b.exponent)

/-- The parts of a double are in canonical form, and write the number that it stands for. -/
theorem ofFloat?_number {a : Float} {b : Binary} (h : Binary.ofFloat? a = some b) :
    (Canonical b.significand b.exponent ∧ b.exponent ≤ 971) ∧
      value? a = some (.number (number b)) := by
  rw [ofFloat?_eq] at h
  rw [value?]
  cases hu : a.toModel.unpack with
  | notANumber =>
    rw [hu] at h
    cases h
  | infinity s =>
    rw [hu] at h
    cases h
  | zero s =>
    rw [hu] at h
    cases h
    refine ⟨⟨⟨by norm_num, le_rfl, .inl rfl⟩, by norm_num⟩, ?_⟩
    cases s <;> simp [number, unpackedValue?, signed]
  | finite s m e hm =>
    rw [hu] at h
    cases h
    refine ⟨canonical_unpack hu, ?_⟩
    cases s <;> rfl

theorem ofFloat?_of_number (h : value? a = some (.number x)) :
    ∃ b, Binary.ofFloat? a = some b := by
  rw [ofFloat?_eq]
  rcases unpacked_of_number h with ⟨s, hu, -⟩ | ⟨s, m, e, hm, hu, -⟩ <;> rw [hu] <;> exact ⟨_, rfl⟩

theorem natAbs?_magnitude {b : Binary} {n : ℕ} (h : b.natAbs? = some n) :
    (b.significand : ℚ) * 2 ^ b.exponent = n := by
  rw [Binary.natAbs?] at h
  split at h
  · rename_i e he
    obtain rfl := Option.some.inj h
    show _ = ((b.significand * 2 ^ e : ℕ) : ℚ)
    rw [he, Int.ofNat_eq_natCast, zpow_natCast]
    push_cast
    rfl
  · rename_i e he
    dsimp only at h
    split at h
    · rename_i hdivides
      obtain rfl := Option.some.inj h
      have hunit : b.significand / 2 ^ (e + 1) * 2 ^ (e + 1) = b.significand :=
        Nat.div_mul_cancel (Nat.dvd_of_mod_eq_zero hdivides)
      rw [he, zpow_negSucc]
      conv_lhs => rw [← hunit]
      show _ = ((b.significand / 2 ^ (e + 1) : ℕ) : ℚ)
      push_cast
      rw [mul_assoc, mul_inv_cancel₀ (by positivity), mul_one]
    · cases h

theorem value?_of_wholeNumber? {i : ℤ} (h : wholeNumber? a = some i) :
    value? a = some (.number i) := by
  obtain ⟨b, hb, hint⟩ := Option.bind_eq_some_iff.mp h
  obtain ⟨_, hcast, rfl⟩ := Option.map_eq_some_iff.mp hint
  obtain ⟨n, hn, hcast⟩ := Option.bind_eq_some_iff.mp hcast
  obtain rfl := Option.some.inj hcast
  rw [(ofFloat?_number hb).2, number, natAbs?_magnitude hn]
  cases b.negative <;> simp [signed]

/-- A double that is a whole number of one machine word stays the same number as an integer. -/
theorem value?_floatOfInt {i : ℤ} (h : wholeNumber? a = some i) (hi : i.natAbs < 2 ^ 64) :
    value? (floatOfInt i) = some (.number i) := by
  obtain ⟨hrounds, -, -⟩ := number_exact (value?_of_wholeNumber? h)
  obtain ⟨f, hf, hvalue⟩ := floatOfNat_number hi
  rw [floatOfInt]
  split
  · rename_i hneg
    rw [Nat.cast_natAbs, abs_of_neg hneg, Int.cast_neg] at hf
    rw [value?_neg hvalue, hf.unique hrounds.neg, neg_neg]
  · rename_i hpos
    rw [Nat.cast_natAbs, abs_of_nonneg (not_lt.mp hpos)] at hf
    rw [hvalue, hf.unique hrounds]

/-! ## Decimals -/

theorem signed_natCast (n : ℕ) : signed .positive ((n : ℚ) * 2 ^ (0 : ℤ)) = n := by
  rw [signed, zpow_zero, mul_one]

/-- A decimal is the product or the quotient with a power of ten. -/
theorem unpacked_ofScientific_yields (hm : 0 < m) (hhigh : e ≤ 2 ^ 11)
    (hlow : -(2 ^ 11 + m.log2 : ℤ) ≤ e) :
    UnpackedYields (m * 10 ^ e) (UnpackedFloat.ofScientific .binary64 m e) := by
  have hhigh' : ¬ e > 2 ^ Format.binary64.exponentBits := not_lt.mpr hhigh
  have hlow' : ¬ e < -(2 ^ Format.binary64.exponentBits + (m.log2 : ℤ)) := not_lt.mpr hlow
  rw [UnpackedFloat.ofScientific, dif_neg hm.ne', if_neg hhigh', if_neg hlow']
  by_cases he : 0 ≤ e
  · obtain ⟨n, rfl⟩ := Int.eq_ofNat_of_zero_le he
    have hbits : 2 ^ 52 ≤ m <<< 53 := by
      rw [Nat.shiftLeft_eq]
      omega
    have hvalue : signed .positive (((m <<< 53 : ℕ) : ℚ) * 2 ^ (-53 : ℤ)) = m := by
      rw [signed, Nat.shiftLeft_eq, zpow_neg]
      push_cast
      exact mul_inv_cancel_right₀ (by positivity) _
    have h : UnpackedYields (signed .positive (((m <<< 53 : ℕ) : ℚ) * 2 ^ (-53 : ℤ)) *
        signed .positive (((10 ^ n : ℕ) : ℚ) * 2 ^ (0 : ℤ))) _ :=
      mul_finite_yields (by omega) (by positivity) (.inl hbits)
    rw [hvalue, signed_natCast] at h
    rw [if_pos he, zpow_natCast]
    exact_mod_cast h
  · obtain ⟨n, rfl⟩ := Int.exists_eq_neg_ofNat (not_le.mp he).le
    have h := div_unpacked_yields (u := .finite .positive m 0 hm)
      (v := .finite .positive (10 ^ n) 0 (by positivity)) rfl rfl
      (by rw [signed_natCast]; positivity)
    rw [signed_natCast, signed_natCast] at h
    rw [if_neg he, zpow_neg, zpow_natCast, ← div_eq_mul_inv]
    have hn : (-(-(n : ℤ))).toNat = n := by omega
    simp only [hn]
    exact_mod_cast h

/-- The table of powers of ten that small decimals are read with. -/
theorem exactlyRepresentable {n : ℕ} (hn : n < Float.exactlyRepresentablePowersOfTen.size) :
    value? Float.exactlyRepresentablePowersOfTen[n] = some (.number (10 ^ n)) := by
  have hwhole : ∀ n (h : n < Float.exactlyRepresentablePowersOfTen.size),
      wholeNumber? Float.exactlyRepresentablePowersOfTen[n] = some (10 ^ n) := by decide +kernel
  have h := value?_of_wholeNumber? (hwhole n hn)
  rwa [Int.cast_pow, Int.cast_ofNat] at h

/-- **A decimal** is rounded correctly. -/
theorem ofScientific_yields (hm : 0 < m) (hhigh : e ≤ 2 ^ 11)
    (hlow : -(2 ^ 11 + m.log2 : ℤ) ≤ e) :
    Yields (m * 10 ^ e) (Float.ofScientific m (decide (e < 0)) e.natAbs) := by
  rw [Float.ofScientific]
  split
  · rename_i hsmall
    have hpower := exactlyRepresentable (n := e.natAbs) (Nat.lt_succ_of_le hsmall.2)
    have hdigits : value? m.toUInt64.toFloat = some (.number m) := floatOfNat_exact hsmall.1
    rcases lt_or_ge e 0 with he | he
    · have hvalue : (m : ℚ) * 10 ^ e = m / 10 ^ e.natAbs := by
        rw [div_eq_mul_inv, ← zpow_natCast, ← zpow_neg, Int.ofNat_natAbs_of_nonpos he.le, neg_neg]
      rw [decide_eq_true he, hvalue]
      exact div_yields hdigits hpower (by positivity)
    · have hvalue : (m : ℚ) * 10 ^ e = m * 10 ^ e.natAbs := by
        rw [← zpow_natCast, Int.natAbs_of_nonneg he]
      rw [decide_eq_false (not_lt.mpr he), hvalue]
      exact mul_yields hdigits hpower
  · have hexponent : (if decide (e < 0) = true then Int.negOfNat e.natAbs
        else Int.ofNat e.natAbs) = e := by
      rcases lt_or_ge e 0 with he | he
      · rw [decide_eq_true he, if_pos rfl, Int.negOfNat_eq, Int.ofNat_eq_natCast,
          Int.ofNat_natAbs_of_nonpos he.le, neg_neg]
      · rw [decide_eq_false (not_lt.mpr he), if_neg Bool.false_ne_true]
        exact Int.natAbs_of_nonneg he
    rw [hexponent]
    exact (unpacked_ofScientific_yields hm hhigh hlow).pack

/-! ## Powers of ten -/

open Json.Numeral

/-- The powers of ten up to `10 ^ 22` are doubles. -/
theorem powerOfTen_exact {n : ℕ} (hn : n ≤ 22) :
    value? (powerOfTen n) = some (.number (10 ^ n)) := by
  have hwhole : ∀ n ≤ 22, wholeNumber? (powerOfTen n) = some (10 ^ n) := by decide +kernel
  have h := value?_of_wholeNumber? (hwhole n hn)
  rwa [Int.cast_pow, Int.cast_ofNat] at h

/-- **The table of powers of ten** is correctly rounded. -/
theorem powerOfTen_yields {n : ℕ} (hn : n ≤ tableSize) :
    Yields (10 ^ n) (powerOfTen n) := by
  have htable : n ≤ 308 := hn
  have h := ofScientific_yields (m := 1) (e := n) one_pos (by omega) (by omega)
  rwa [Nat.cast_one, one_mul, zpow_natCast, decide_eq_false (by omega)] at h

/-- The powers of ten of the table are numbers, and none is below one. -/
theorem powerOfTen_number {n : ℕ} (hn : n ≤ tableSize) :
    ∃ y, Rounds (10 ^ n) y ∧ value? (powerOfTen n) = some (.number y) ∧ 1 ≤ y := by
  have hone := number_exact (powerOfTen_exact (n := 0) (by decide))
  rw [pow_zero] at hone
  have hbound : Canonical (2 ^ 53 - 1) 971 := ⟨by norm_num, by norm_num, .inr (by norm_num)⟩
  have hle : (10 : ℚ) ^ n ≤ ((2 ^ 53 - 1 : ℕ) : ℚ) * 2 ^ (971 : ℤ) := by
    have hnat : 10 ^ n ≤ (2 ^ 53 - 1) * 2 ^ 971 :=
      (Nat.pow_le_pow_right (by decide) hn).trans (by decide +kernel)
    exact_mod_cast hnat
  obtain ⟨y, hrounds, hvalue, hlow, -⟩ := (powerOfTen_yields hn).between hone.1
    hbound.rounds (one_le_pow₀ (by norm_num)) hle (abs_lt.mp hone.2.1).1
    (hbound.lt_overflow le_rfl)
  exact ⟨y, hrounds, hvalue, hlow⟩

end VehiclePrivacy.Binary64
