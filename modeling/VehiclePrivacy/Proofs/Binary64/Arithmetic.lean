import VehiclePrivacy.Proofs.Binary64.Value

/-!
# Sums and quotients of doubles

Every operation computes a mantissa of enough bits, with a note on what is cut off below it, and
leaves the rest to `roundWithAccuracy`. So there is one proof that rounding is correct
(`roundWithAccuracy_yields`), and for each operation it remains to show that the mantissa and the
note describe the exact result: `add_yields` and `div_yields`.

Of the halfway point between two doubles this gives all that matters: it lies between them
(`midpoint_mem`).
-/

namespace VehiclePrivacy.Binary64

open Float.Model Float.Model.UnpackedFloat

/-! ## What is cut off -/

/-- The accuracy describes what is cut off, as a part of the last place. -/
def Describes : Accuracy → ℚ → Prop
  | .exact, f => f = 0
  | .inexact o, f => 0 < f ∧ f < 1 ∧ o.Compares f (1 / 2)

/-- The mantissa and its two further bits stand for `q`. -/
def Represents (em : ExtendedMantissa) (q : ℚ) : Prop := Describes em.accuracy (q - em.mantissa)

variable {em : ExtendedMantissa} {q f : ℚ} {acc : Accuracy}

theorem Describes.nonneg (h : Describes acc f) : 0 ≤ f := by
  cases acc with
  | exact => exact h.ge
  | inexact o => exact h.1.le

theorem Describes.lt_one (h : Describes acc f) : f < 1 := by
  cases acc with
  | exact =>
    rw [show f = 0 from h]
    exact one_pos
  | inexact o => exact h.2.1

theorem represents_ofMantissaAndAccuracy (m : ℕ) (h : Describes acc f) :
    Represents (.ofMantissaAndAccuracy m acc) (m + f) := by
  have hmantissa : (ExtendedMantissa.ofMantissaAndAccuracy m acc).mantissa = m := by
    rcases acc with _ | _ | _ | _ <;> rfl
  have haccuracy : (ExtendedMantissa.ofMantissaAndAccuracy m acc).accuracy = acc := by
    rcases acc with _ | _ | _ | _ <;> rfl
  rw [Represents, hmantissa, haccuracy, add_sub_cancel_left]
  exact h

theorem Represents.shiftRightOne (h : Represents em q) : Represents em.shiftRightOne (q / 2) := by
  obtain ⟨m, round, sticky⟩ := em
  have hlt : q - m < 1 := Describes.lt_one h
  have hcut : (round || sticky) = false ∧ q = m ∨ (round || sticky) = true ∧ (m : ℚ) < q := by
    cases round <;> cases sticky
    · exact .inl ⟨rfl, sub_eq_zero.mp h⟩
    all_goals exact .inr ⟨rfl, sub_pos.mp h.1⟩
  have hm : (m : ℚ) = 2 * (m / 2 : ℕ) + (m % 2 : ℕ) := by
    exact_mod_cast (Nat.div_add_mod m 2).symm
  -- the last bit of the mantissa becomes the first of the two below it
  have hshift : ExtendedMantissa.shiftRightOne ⟨m, round, sticky⟩ =
      ⟨m / 2, m % 2 != 0, round || sticky⟩ := rfl
  rw [hshift]
  rcases Nat.mod_two_eq_zero_or_one m with hbit | hbit
  · rw [hbit, Nat.cast_zero] at hm
    rw [hbit]
    rcases hcut with ⟨hbits, rfl⟩ | ⟨hbits, hpos⟩
    · rw [hbits]
      exact show (m : ℚ) / 2 - (m / 2 : ℕ) = 0 by linarith
    · rw [hbits]
      exact ⟨by linarith, by linarith, show q / 2 - (m / 2 : ℕ) < 1 / 2 by linarith⟩
  · rw [hbit, Nat.cast_one] at hm
    rw [hbit]
    rcases hcut with ⟨hbits, rfl⟩ | ⟨hbits, hpos⟩
    · rw [hbits]
      exact ⟨by linarith, by linarith, show (m : ℚ) / 2 - (m / 2 : ℕ) = 1 / 2 by linarith⟩
    · rw [hbits]
      exact ⟨by linarith, by linarith, show 1 / 2 < q / 2 - (m / 2 : ℕ) by linarith⟩

theorem Represents.shiftRight (h : Represents em q) (n : ℕ) :
    Represents (em >>> n) (q / 2 ^ n) := by
  induction n with
  | zero =>
    rw [pow_zero, div_one]
    exact h
  | succ n ih =>
    rw [pow_succ, ← div_div]
    exact ih.shiftRightOne

/-- The rounded mantissa is the nearest integer. -/
theorem Represents.nearest (h : Represents em q) : Nearest q em.roundedMantissa := by
  rw [Represents] at h
  rw [ExtendedMantissa.roundedMantissa]
  generalize em.accuracy = acc at h
  generalize em.mantissa = m at h
  rcases acc with _ | o
  · rw [sub_eq_zero.mp h]
    exact nearest_int m
  · obtain ⟨hpos, hlt, hcompares⟩ := h
    cases o with
    | lt =>
      have hhalf : q - m < 1 / 2 := hcompares
      have habs : |q - ((m : ℤ) : ℚ)| = q - m := abs_of_pos hpos
      exact ⟨habs.le.trans hhalf.le, fun htie => absurd (habs.symm.trans htie) hhalf.ne⟩
    | gt =>
      have hhalf : 1 / 2 < q - m := hcompares
      have habs : |q - (((m + 1 : ℕ) : ℤ) : ℚ)| = m + 1 - q := by
        push_cast
        rw [abs_of_neg (by linarith)]
        ring
      refine ⟨?_, fun htie => ?_⟩
      · exact habs.le.trans (by linarith)
      · have : m + 1 - q = 1 / 2 := habs.symm.trans htie
        linarith
    | eq =>
      have hhalf : q - m = 1 / 2 := hcompares
      -- halfway: the mantissa is rounded up if it is odd
      have hrounded : Accuracy.roundToNearestEven m (.inexact .eq) = m + m % 2 := rfl
      rw [hrounded]
      rcases Nat.mod_two_eq_zero_or_one m with hbit | hbit
      · have habs : |q - (((m + 0 : ℕ) : ℤ) : ℚ)| = 1 / 2 := by
          push_cast
          rw [add_zero, hhalf, abs_of_pos (by norm_num)]
        rw [hbit]
        exact ⟨habs.le, fun _ => ⟨(m / 2 : ℕ), by omega⟩⟩
      · have habs : |q - (((m + 1 : ℕ) : ℤ) : ℚ)| = 1 / 2 := by
          push_cast
          rw [← sub_sub, hhalf, abs_of_neg (by norm_num)]
          norm_num
        rw [hbit]
        exact ⟨habs.le, fun _ => ⟨(m / 2 + 1 : ℕ), by omega⟩⟩

/-! ## Rounding with what is cut off -/

/-- The exponent that a number with this mantissa and exponent is rounded to. -/
def target (m : ℕ) (e : ℤ) : ℤ := Format.binary64.targetExponent (totalExponent m e)

theorem target_eq (m : ℕ) (e : ℤ) : target m e = max (m.log2 + 1 + e - 53) (-1074) := rfl

variable {m : ℕ} {e t : ℤ}

theorem shift_represents (h : Describes acc f) (he : e ≤ t) :
    ∃ em, shiftToExponent m e acc t = (em, t) ∧ Represents em ((m + f) * 2 ^ e / 2 ^ t) := by
  have hshift : e + ((t - e).toNat : ℤ) = t := by omega
  have hvalue : (m + f) * 2 ^ e / 2 ^ t = (m + f) / 2 ^ (t - e).toNat := by
    conv_lhs => rw [← hshift]
    rw [two_zpow_add, zpow_natCast, mul_comm ((2 : ℚ) ^ e),
      mul_div_mul_right _ _ (two_zpow_pos e).ne']
  refine ⟨_, Prod.ext rfl hshift, ?_⟩
  rw [hvalue]
  exact (represents_ofMantissaAndAccuracy m h).shiftRight _

/-- The target exponent is the scale of the number. -/
theorem scale_target (h : Describes acc f) (he : e ≤ target m e) :
    Scale ((m + f) * 2 ^ e) (target m e) := by
  have hf := h.nonneg
  have hpos : 0 ≤ (m + f) * 2 ^ e := mul_nonneg (by positivity) (two_zpow_pos e).le
  have hm : (m : ℚ) + 1 ≤ 2 ^ ((m.log2 + 1 : ℕ) : ℤ) := by
    exact_mod_cast Nat.succ_le_of_lt Nat.lt_log2_self
  rw [target_eq] at he ⊢
  refine ⟨le_max_right _ _, ?_, ?_⟩
  · rw [abs_of_nonneg hpos]
    calc (m + f) * 2 ^ e < (m + 1) * 2 ^ e := by
          exact mul_lt_mul_of_pos_right (by linarith [h.lt_one]) (two_zpow_pos e)
      _ ≤ 2 ^ ((m.log2 + 1 : ℕ) : ℤ) * 2 ^ e := by gcongr
      _ = 2 ^ ((m.log2 + 1 : ℕ) + e) := (two_zpow_add _ _).symm
      _ ≤ 2 ^ (max ((m.log2 : ℤ) + 1 + e - 53) (-1074) + 53) := two_zpow_le.mpr (by omega)
  · rcases max_choice ((m.log2 : ℤ) + 1 + e - 53) (-1074) with hmax | hmax
    · by_cases hzero : m = 0
      · -- without a mantissa, the exponent is at its least
        subst hzero
        rw [Nat.log2_zero] at *
        exact .inl (by omega)
      · refine .inr ?_
        have hm' : (2 : ℚ) ^ (m.log2 : ℤ) ≤ m := by exact_mod_cast Nat.log2_self_le hzero
        rw [abs_of_nonneg hpos, hmax]
        calc (2 : ℚ) ^ ((m.log2 : ℤ) + 1 + e - 53 + 52) = 2 ^ ((m.log2 : ℤ) + e) := by
              congr 1
              ring
          _ = 2 ^ (m.log2 : ℤ) * 2 ^ e := two_zpow_add _ _
          _ ≤ (m + f) * 2 ^ e := by
              gcongr
              linarith
    · exact .inl hmax

/-- Where rounding brings the mantissa to 54 bits, the second shift takes the last one away. -/
theorem canonical_shift {n : ℕ} (hn : n ≤ 2 ^ 53) (ht : -1074 ≤ t)
    (htight : t = -1074 ∨ 2 ^ 52 ≤ n) :
    ∃ em' t', shiftToTargetExponent .binary64 n t .exact = (em', t') ∧ Canonical em'.mantissa t' ∧
      (em'.mantissa : ℚ) * 2 ^ t' = n * 2 ^ t := by
  have hshift : shiftToTargetExponent .binary64 n t .exact =
      ((⟨n, false, false⟩ : ExtendedMantissa) >>> (target n t - t).toNat,
        t + (target n t - t).toNat) := rfl
  rw [hshift, target_eq]
  rcases hn.eq_or_lt with rfl | hlt
  · have hone : (max (((2 ^ 53 : ℕ).log2 : ℤ) + 1 + t - 53) (-1074) - t).toNat = 1 := by
      rw [Nat.log2_two_pow]
      omega
    rw [hone]
    refine ⟨⟨2 ^ 52, false, false⟩, t + 1, rfl, ⟨by norm_num, by omega, .inr le_rfl⟩, ?_⟩
    rw [two_zpow_add]
    push_cast
    ring
  · have hlog : n.log2 < 53 := by
      by_cases hzero : n = 0
      · rw [hzero, Nat.log2_zero]
        norm_num
      · exact (Nat.log2_lt hzero).mpr hlt
    have hnone : (max ((n.log2 : ℤ) + 1 + t - 53) (-1074) - t).toNat = 0 := by omega
    rw [hnone]
    exact ⟨⟨n, false, false⟩, t, Prod.ext rfl (add_zero t), ⟨hlt, ht, htight⟩, rfl⟩

theorem signed_mul (s : Sign) (x y : ℚ) : signed s (x * y) = signed s x * y := by
  cases s with
  | negative => exact (neg_mul x y).symm
  | positive => rfl

theorem Rounds.signed {x y : ℚ} (h : Rounds x y) (s : Sign) : Rounds (signed s x) (signed s y) := by
  cases s with
  | negative => exact h.neg
  | positive => exact h

/-- The unpacked double is what the number `x` is rounded to. -/
def UnpackedYields (x : ℚ) (u : UnpackedFloat) : Prop := ∃ y, Rounds x y ∧ Results u y

/-- **Rounding is correct**, for a mantissa that has bits enough. -/
theorem roundWithAccuracy_yields (s : Sign) (h : Describes acc f) (he : e ≤ target m e) :
    UnpackedYields (signed s ((m + f) * 2 ^ e)) (roundWithAccuracy .binary64 s m e acc) := by
  obtain ⟨em, hem, hrepresents⟩ := shift_represents h he
  have hscale := scale_target h he
  have hnearest := hrepresents.nearest
  have hpos : 0 ≤ (m + f) * 2 ^ e :=
    mul_nonneg (add_nonneg (by positivity) h.nonneg) (two_zpow_pos e).le
  set x := (m + f) * 2 ^ e with hx
  set t := target m e with ht
  have hn : em.roundedMantissa ≤ 2 ^ 53 := by
    exact_mod_cast hscale.nearest_le hnearest hpos
  have htight : t = -1074 ∨ 2 ^ 52 ≤ em.roundedMantissa := by
    exact_mod_cast hscale.le_nearest hnearest hpos
  obtain ⟨em', t', hem', hcanonical, hvalue⟩ := canonical_shift hn hscale.least htight
  have hfirst : shiftToTargetExponent .binary64 m e acc = (em, t) := hem
  -- the second shift changes the form of the result only
  refine ⟨signed s (em.roundedMantissa * 2 ^ t), Rounds.signed ⟨t, _, hscale, hnearest, rfl⟩ s, ?_⟩
  rw [roundWithAccuracy, hfirst]
  dsimp only
  rw [hem']
  dsimp only
  rw [← hvalue]
  split
  · rename_i hzero
    refine ⟨trivial, ?_⟩
    show signed s (em'.mantissa * 2 ^ t') = 0
    rw [hzero, Nat.cast_zero, zero_mul]
    cases s <;> norm_num [signed]
  · exact ⟨hcanonical, rfl⟩

theorem decreaseExponent_eq (m : ℕ) (e t : ℤ) :
    decreaseExponent m e t = (m * 2 ^ (e - t).toNat, e - (e - t).toNat) := by
  rw [decreaseExponent, Nat.shiftLeft_eq]

theorem shiftLeft_value (m : ℕ) (e : ℤ) (k : ℕ) :
    ((m * 2 ^ k : ℕ) : ℚ) * 2 ^ (e - k) = m * 2 ^ e := by
  have he : e = k + (e - k) := by ring
  conv_rhs => rw [he, two_zpow_add, zpow_natCast]
  push_cast
  ring

theorem log2_shiftLeft (hm : 0 < m) (k : ℕ) : m.log2 + k ≤ (m * 2 ^ k).log2 := by
  rw [Nat.le_log2 (by positivity), pow_add]
  exact Nat.mul_le_mul_right _ (Nat.log2_self_le hm.ne')

theorem round_yields (s : Sign) (hm : 0 < m) :
    UnpackedYields (signed s (m * 2 ^ e)) (UnpackedFloat.round .binary64 s m e) := by
  have hround : UnpackedFloat.round .binary64 s m e =
      roundWithAccuracy .binary64 s (m * 2 ^ (e - target m e).toNat)
        (e - (e - target m e).toNat) .exact := by
    rw [← Nat.shiftLeft_eq]
    rfl
  have hvalue := shiftLeft_value m e (e - target m e).toNat
  have htarget : e - (e - target m e).toNat ≤
      target (m * 2 ^ (e - target m e).toNat) (e - (e - target m e).toNat) := by
    have hlog := log2_shiftLeft hm (e - target m e).toNat
    rw [target_eq (m * _)]
    rw [target_eq] at hlog ⊢
    omega
  have hyields := roundWithAccuracy_yields s (show Describes .exact 0 from rfl) htarget
  rw [add_zero, hvalue] at hyields
  rw [hround]
  exact hyields

theorem rounds_zero : Rounds 0 0 := by
  have hscale : Scale (((0 : ℤ) : ℚ) * 2 ^ (-1074 : ℤ)) (-1074) := by
    rw [Int.cast_zero, zero_mul]
    exact ⟨le_rfl, by rw [abs_zero]; exact two_zpow_pos _, .inl rfl⟩
  simpa using rounds_grid hscale

theorem zero_yields (s : Sign) : UnpackedYields 0 (.zero s) := ⟨0, rounds_zero, trivial, rfl⟩

theorem normalize_yields (n : ℤ) (e : ℤ) (s : Sign) :
    UnpackedYields (n * 2 ^ e) (UnpackedFloat.normalize .binary64 n e s) := by
  rcases lt_trichotomy n 0 with hneg | rfl | hpos
  · have hcompare : compare n 0 = .lt := (compare_iff n 0).mpr hneg
    have hn : ((-n).toNat : ℚ) = -n := by exact_mod_cast Int.toNat_of_nonneg (by omega)
    have hyields := round_yields (e := e) .negative (m := (-n).toNat) (by omega)
    rw [signed, hn, neg_mul, neg_neg] at hyields
    rw [UnpackedFloat.normalize, hcompare]
    exact hyields
  · rw [Int.cast_zero, zero_mul]
    exact zero_yields s
  · have hcompare : compare n 0 = .gt := (compare_iff n 0).mpr hpos
    have hn : (n.toNat : ℚ) = n := by exact_mod_cast Int.toNat_of_nonneg hpos.le
    have hyields := round_yields (e := e) .positive (m := n.toNat) (by omega)
    rw [signed, hn] at hyields
    rw [UnpackedFloat.normalize, hcompare]
    exact hyields

theorem Canonical.rounds (h : Canonical m e) : Rounds (m * 2 ^ e) (m * 2 ^ e) := by
  have hpos : (0 : ℚ) ≤ m * 2 ^ e := mul_nonneg (by positivity) (two_zpow_pos e).le
  have hm : (m : ℚ) < 2 ^ (53 : ℤ) := by exact_mod_cast h.bits
  have hscale : Scale (((m : ℤ) : ℚ) * 2 ^ e) e := by
    rw [Int.cast_natCast]
    refine ⟨h.least, ?_, ?_⟩
    · rw [abs_of_nonneg hpos, add_comm, two_zpow_add]
      exact mul_lt_mul_of_pos_right hm (two_zpow_pos e)
    · rcases h.tight with hleast | htight
      · exact .inl hleast
      · have hm' : (2 : ℚ) ^ (52 : ℤ) ≤ m := by exact_mod_cast htight
        rw [abs_of_nonneg hpos, add_comm, two_zpow_add]
        exact .inr (by gcongr)
  have := rounds_grid hscale
  rwa [Int.cast_natCast] at this

/-- Numbers that are doubles already stay. -/
theorem finite_yields {s : Sign} (hm : 0 < m) (h : Canonical m e) :
    UnpackedYields (signed s (m * 2 ^ e)) (.finite s m e hm) :=
  ⟨_, h.rounds.signed s, h, rfl⟩

/-! ## The operations -/

theorem apply_cast (s : Sign) (n : ℕ) : ((s.apply n : ℤ) : ℚ) = signed s n := by
  cases s with
  | negative => exact (Int.cast_neg _).trans rfl
  | positive => rfl

theorem add_unpacked_yields {u v : UnpackedFloat} {x y : ℚ} (hu : UnpackedCanonical u)
    (hv : UnpackedCanonical v) (hx : unpackedValue? u = some (.number x))
    (hy : unpackedValue? v = some (.number y)) :
    UnpackedYields (x + y) (UnpackedFloat.add .binary64 u v) := by
  rcases unpacked_of_number hx with ⟨s, rfl, rfl⟩ | ⟨s, m, e, hm, rfl, rfl⟩
  · rw [zero_add]
    rcases unpacked_of_number hy with ⟨s', rfl, rfl⟩ | ⟨s', m', e', hm', rfl, rfl⟩
    · rw [UnpackedFloat.add]
      split <;> exact zero_yields _
    · exact finite_yields hm' hv
  · rcases unpacked_of_number hy with ⟨s', rfl, rfl⟩ | ⟨s', m', e', hm', rfl, rfl⟩
    · rw [add_zero]
      exact finite_yields hm hu
    · -- both mantissas are brought to the smaller exponent, where the sum is exact
      have hadd : UnpackedFloat.add .binary64 (.finite s m e hm) (.finite s' m' e' hm') =
          UnpackedFloat.normalize .binary64 (s.apply (m * 2 ^ (e - min e e').toNat : ℕ) +
            s'.apply (m' * 2 ^ (e' - min e e').toNat : ℕ)) (min e e') .positive := by
        rw [UnpackedFloat.add, decreaseExponent_eq, decreaseExponent_eq]
      have hsum : signed s (m * 2 ^ e) + signed s' (m' * 2 ^ e') =
          ((s.apply (m * 2 ^ (e - min e e').toNat : ℕ) +
            s'.apply (m' * 2 ^ (e' - min e e').toNat : ℕ) : ℤ) : ℚ) * 2 ^ min e e' := by
        have hleft : e - ((e - min e e').toNat : ℤ) = min e e' := by omega
        have hright : e' - ((e' - min e e').toNat : ℤ) = min e e' := by omega
        have hm2 := shiftLeft_value m e (e - min e e').toNat
        have hm2' := shiftLeft_value m' e' (e' - min e e').toNat
        rw [hleft] at hm2
        rw [hright] at hm2'
        rw [Int.cast_add, add_mul, apply_cast, apply_cast, ← signed_mul, ← signed_mul, hm2, hm2']
      rw [hadd, hsum]
      exact normalize_yields _ _ _

theorem signed_div (s s' : Sign) (x y : ℚ) :
    signed s x / signed s' y = signed (s / s') (x / y) := by
  cases s <;> cases s'
  · exact neg_div_neg_eq x y
  · exact neg_div y x
  · exact div_neg x
  · rfl

theorem describes_fraction {r d : ℕ} (h : r < d) : Describes (accuracyOfFraction r d) (r / d) := by
  have hd : (0 : ℚ) < d := by exact_mod_cast Nat.zero_lt_of_lt h
  rw [accuracyOfFraction]
  split
  · rename_i hzero
    rw [hzero, Nat.cast_zero, zero_div]
    rfl
  · rename_i hne
    have hr : (0 : ℚ) < r := by exact_mod_cast Nat.pos_of_ne_zero hne
    refine ⟨by positivity, (div_lt_one hd).mpr (by exact_mod_cast h), ?_⟩
    rcases lt_trichotomy (2 * r) d with hlt | heq | hgt
    · rw [(compare_iff (2 * r) d).mpr (show Ordering.lt.Compares _ _ from hlt)]
      refine (div_lt_iff₀ hd).mpr ?_
      have : (2 * r : ℚ) < d := by exact_mod_cast hlt
      linarith
    · rw [(compare_iff (2 * r) d).mpr (show Ordering.eq.Compares _ _ from heq)]
      refine (div_eq_iff hd.ne').mpr ?_
      have : (2 * r : ℚ) = d := by exact_mod_cast heq
      linarith
    · rw [(compare_iff (2 * r) d).mpr (show Ordering.gt.Compares _ _ from hgt)]
      refine (lt_div_iff₀ hd).mpr ?_
      have : (d : ℚ) < 2 * r := by exact_mod_cast hgt
      linarith

/-- The mantissa of a quotient has 53 bits, or its exponent is the least. -/
theorem le_target_div {m' : ℕ} {e' : ℤ} (hm : 0 < m) (hm' : 0 < m')
    (ht : t = min (e - e')
      (Format.binary64.targetExponent (totalExponent m e - totalExponent m' e'))) :
    t ≤ target (m * 2 ^ (e - e' - t).toNat / m') t := by
  have htotal : Format.binary64.targetExponent (totalExponent m e - totalExponent m' e') =
      max (m.log2 + 1 + e - (m'.log2 + 1 + e') - 53) (-1074) := rfl
  rw [htotal] at ht
  rw [target_eq]
  by_cases hleast : t ≤ -1074
  · omega
  · have hshift : m'.log2 + 1 + 52 ≤ m.log2 + (e - e' - t).toNat := by omega
    have hquotient : 2 ^ 52 ≤ m * 2 ^ (e - e' - t).toNat / m' := by
      rw [Nat.le_div_iff_mul_le hm']
      calc 2 ^ 52 * m' ≤ 2 ^ 52 * 2 ^ (m'.log2 + 1) := Nat.mul_le_mul_left _ Nat.lt_log2_self.le
        _ = 2 ^ (m'.log2 + 1 + 52) := by rw [← pow_add, add_comm]
        _ ≤ 2 ^ (m.log2 + (e - e' - t).toNat) := Nat.pow_le_pow_right two_pos hshift
        _ = 2 ^ m.log2 * 2 ^ (e - e' - t).toNat := pow_add _ _ _
        _ ≤ m * 2 ^ (e - e' - t).toNat := Nat.mul_le_mul_right _ (Nat.log2_self_le hm.ne')
    have hlog : 52 ≤ (m * 2 ^ (e - e' - t).toNat / m').log2 :=
      (Nat.le_log2 (by omega)).mpr hquotient
    omega

theorem div_unpacked_yields {u v : UnpackedFloat} {x y : ℚ}
    (hx : unpackedValue? u = some (.number x)) (hy : unpackedValue? v = some (.number y))
    (hne : y ≠ 0) : UnpackedYields (x / y) (UnpackedFloat.div .binary64 u v) := by
  rcases unpacked_of_number hy with ⟨s', rfl, rfl⟩ | ⟨s', m', e', hm', rfl, rfl⟩
  · exact absurd rfl hne
  · rcases unpacked_of_number hx with ⟨s, rfl, rfl⟩ | ⟨s, m, e, hm, rfl, rfl⟩
    · rw [zero_div]
      exact zero_yields _
    · obtain ⟨t, ht⟩ : ∃ t, t = min (e - e')
          (Format.binary64.targetExponent (totalExponent m e - totalExponent m' e')) := ⟨_, rfl⟩
      have hdiv : UnpackedFloat.div .binary64 (.finite s m e hm) (.finite s' m' e' hm') =
          roundWithAccuracy .binary64 (s / s') (m * 2 ^ (e - e' - t).toNat / m') t
            (accuracyOfFraction (m * 2 ^ (e - e' - t).toNat % m') m') := by
        rw [ht, ← Nat.shiftLeft_eq]
        rfl
      -- quotient and remainder together are the exact result
      have hvalue : (m : ℚ) * 2 ^ e / (m' * 2 ^ e') =
          ((m * 2 ^ (e - e' - t).toNat / m' : ℕ) +
            ((m * 2 ^ (e - e' - t).toNat % m' : ℕ) : ℚ) / m') * 2 ^ t := by
        have hpos' : (m' : ℚ) ≠ 0 := by exact_mod_cast hm'.ne'
        have hexact : (m' : ℚ) * (m * 2 ^ (e - e' - t).toNat / m' : ℕ) +
            (m * 2 ^ (e - e' - t).toNat % m' : ℕ) = m * 2 ^ (e - e' - t).toNat := by
          exact_mod_cast Nat.div_add_mod _ _
        have he : e = (e - e' - t).toNat + e' + t := by omega
        rw [div_eq_iff (mul_ne_zero hpos' (two_zpow_pos e').ne')]
        conv_lhs => rw [he, two_zpow_add, two_zpow_add, zpow_natCast]
        field_simp
        rw [← hexact]
        ring
      rw [hdiv, signed_div, hvalue]
      exact roundWithAccuracy_yields _ (describes_fraction (Nat.mod_lt _ hm'))
        (le_target_div hm hm' ht)

/-- The double is what the number is rounded to, or infinite where that is too large. -/
def Yields (x : ℚ) (r : Float) : Prop := ∃ y, Rounds x y ∧ value? r = some (clamp y)

variable {a b : Float} {x y : ℚ}

theorem UnpackedYields.pack {u : UnpackedFloat} (h : UnpackedYields x u) :
    Yields x (.ofModel (Float.Model.pack u)) := by
  obtain ⟨y, hrounds, hresults⟩ := h
  exact ⟨y, hrounds, value?_pack hresults⟩

/-- **The sum of two doubles** is their exact sum, rounded. -/
theorem add_yields (ha : value? a = some (.number x)) (hb : value? b = some (.number y)) :
    Yields (x + y) (a + b) :=
  (add_unpacked_yields (unpackedCanonical _) (unpackedCanonical _) ha hb).pack

/-- **The quotient of two doubles** is their exact quotient, rounded. -/
theorem div_yields (ha : value? a = some (.number x)) (hb : value? b = some (.number y))
    (hy : y ≠ 0) : Yields (x / y) (a / b) :=
  (div_unpacked_yields ha hb hy).pack

/-- What a double stands for needs no rounding, is not too large, and can be doubled. -/
theorem number_exact (ha : value? a = some (.number x)) :
    Rounds x x ∧ |x| < overflow ∧ Rounds (2 * x) (2 * x) := by
  rcases unpacked_of_number ha with ⟨s, -, rfl⟩ | ⟨s, m, e, hm, hu, rfl⟩
  · rw [abs_zero, mul_zero]
    exact ⟨rounds_zero, overflow_pos, rounds_zero⟩
  · obtain ⟨hcanonical, he⟩ := canonical_unpack hu
    have hdouble : ∃ m' e', Canonical m' e' ∧ (m' : ℚ) * 2 ^ e' = 2 * (m * 2 ^ e) := by
      -- with all bits in use the exponent grows, else there is room in the mantissa
      by_cases hbits : 2 ^ 52 ≤ m
      · refine ⟨m, e + 1, ⟨hcanonical.bits, by linarith [hcanonical.least], .inr hbits⟩, ?_⟩
        rw [two_zpow_add]
        ring
      · refine ⟨2 * m, e, ⟨by omega, hcanonical.least, ?_⟩, ?_⟩
        · exact .inl (hcanonical.tight.resolve_right hbits)
        · push_cast
          ring
    obtain ⟨m', e', hcanonical', hvalue⟩ := hdouble
    refine ⟨hcanonical.rounds.signed s, ?_, ?_⟩
    · rw [abs_signed s (finite_pos hm e).le]
      exact hcanonical.lt_overflow he
    · have := hcanonical'.rounds.signed s
      rwa [hvalue, mul_comm 2, signed_mul, mul_comm _ (2 : ℚ)] at this

theorem value?_two : value? 2 = some (.number 2) := by
  have hunpack : (2 : Float).toModel.unpack = .finite .positive (2 ^ 52) (-51) (by norm_num) := by
    with_unfolding_all rfl
  rw [value?, hunpack, unpackedValue?, signed]
  norm_num

/-- The double halfway between two doubles lies between them. -/
theorem midpoint_mem (ha : value? a = some (.number x)) (hb : value? b = some (.number y))
    (hab : a ≤ b) (hlow : |2 * x| < overflow) (hhigh : |2 * y| < overflow) :
    a ≤ (a + b) / 2 ∧ (a + b) / 2 ≤ b := by
  obtain ⟨hx, hx', hxx⟩ := number_exact ha
  obtain ⟨hy, hy', hyy⟩ := number_exact hb
  have hxy : x ≤ y := by
    obtain ⟨x', y', hax, hby, hle⟩ := le_iff.mp hab
    rw [ha, Option.some_inj] at hax
    rw [hb, Option.some_inj] at hby
    rw [← hax, ← hby] at hle
    exact number_le.mp hle
  obtain ⟨z, hz, hsum⟩ := add_yields ha hb
  have hxz : 2 * x ≤ z := hxx.mono hz (by linarith)
  have hzy : z ≤ 2 * y := hz.mono hyy (by linarith)
  -- the sum lies between the doubled ends, so it is not too large to be a number
  rw [clamp_of_lt] at hsum
  · obtain ⟨w, hw, hquotient⟩ := div_yields hsum value?_two two_ne_zero
    have hxw : x ≤ w := hx.mono hw (by linarith)
    have hwy : w ≤ y := hw.mono hy (by linarith)
    refine ⟨le_iff.mpr ⟨_, _, ha, hquotient, ?_⟩, le_iff.mpr ⟨_, _, hquotient, hb, ?_⟩⟩
    · rw [← clamp_of_lt hx']
      exact clamp_mono hxw
    · rw [← clamp_of_lt hy']
      exact clamp_mono hwy
  · exact abs_lt.mpr ⟨(abs_lt.mp hlow).1.trans_le hxz, hzy.trans_lt (abs_lt.mp hhigh).2⟩

end VehiclePrivacy.Binary64
