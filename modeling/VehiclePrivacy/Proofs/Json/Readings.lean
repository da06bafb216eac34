import VehiclePrivacy.Proofs.Binary64.Identity
import VehiclePrivacy.Proofs.Decimal.Nearest
import VehiclePrivacy.Proofs.Json.Decimals

/-!
# Two readings of a number

A number is read by the reader of numbers, or between quotes as a decimal. The second reading is the
double nearest to the number that is written. The first drops digits that its significand has no
room for (`magnitude?_near`), and rounds the significand, the power of ten and their product or
quotient. So both come to the same double where nothing of that needs rounding (`toFloat_exact`):
for zeros, for integers of one machine word, and for up to 53 bits of digits with a power of ten up
to the 22nd. Any other number they read as doubles that are a few units in the last place apart at
most (`toFloat_near`).
-/

namespace VehiclePrivacy.Json

open Decimal Numeral Binary64

variable {n : Numeral} {ds : List Char} {s : ℕ} {p : ℤ} {v w q : ℚ} {a : Float}

/-- The digits of the number are decimal digits. -/
structure Numeral.Digital (n : Numeral) : Prop where
  whole : ∀ c ∈ n.whole, c.isDigit = true
  fraction : ∀ c ∈ n.fraction.getD [], c.isDigit = true

/-- The number that the parts write, without their sign. -/
def Numeral.decimal (n : Numeral) : ℚ :=
  natOfDigits n.allDigits * 10 ^ (n.writtenExponent - (n.fraction.getD []).length)

/-- The parts that are found in characters have nothing but digits. -/
theorem digital_ofChars (s : List Char) : (Numeral.ofChars s).Digital := by
  unfold Numeral.ofChars
  constructor
  · exact fun c hc => List.mem_takeWhile_imp hc
  · dsimp only
    split
    · exact fun c hc => List.mem_takeWhile_imp hc
    · exact fun c hc => absurd hc List.not_mem_nil

/-! ## Dropped digits -/

theorem digitValue_le {c : Char} (h : c.isDigit = true) : digitValue c ≤ 9 := by
  rw [Char.isDigit, Bool.and_eq_true, decide_eq_true_eq, decide_eq_true_eq] at h
  have hhigh : c.toNat ≤ 57 := h.2
  show c.toNat - 48 ≤ 9
  omega

/-- Digits that follow add less than a unit of those before them. -/
theorem ofDigitChars_bounds (h : ∀ c ∈ ds, c.isDigit = true) (s : ℕ) :
    s * 10 ^ ds.length ≤ Nat.ofDigitChars 10 ds s ∧
      Nat.ofDigitChars 10 ds s < (s + 1) * 10 ^ ds.length := by
  induction ds generalizing s with
  | nil => simp
  | cons d ds ih =>
    rw [List.forall_mem_cons] at h
    have hd : d.toNat - 48 ≤ 9 := digitValue_le h.1
    obtain ⟨hlow, hhigh⟩ := ih h.2 (10 * s + (d.toNat - 48))
    rw [Nat.ofDigitChars_cons, List.length_cons, pow_succ']
    constructor
    · calc s * (10 * 10 ^ ds.length) = 10 * s * 10 ^ ds.length := by ring
        _ ≤ (10 * s + (d.toNat - 48)) * 10 ^ ds.length := by gcongr; omega
        _ ≤ _ := hlow
    · calc _ < (10 * s + (d.toNat - 48) + 1) * 10 ^ ds.length := hhigh
        _ ≤ (10 * (s + 1)) * 10 ^ ds.length := by gcongr; omega
        _ = (s + 1) * (10 * 10 ^ ds.length) := by ring

/-- The significand takes digits from the front; where one is left over, it is almost full. -/
theorem absorb_spec (h : ∀ c ∈ ds, c.isDigit = true) (hs : s < significandLimit) :
    ∃ taken dropped, absorb s ds = (Nat.ofDigitChars 10 taken s, dropped) ∧
      ds = taken ++ dropped ∧ Nat.ofDigitChars 10 taken s < significandLimit ∧
      (dropped = [] ∨ significandLimit ≤ 10 * Nat.ofDigitChars 10 taken s + 9) := by
  induction ds generalizing s with
  | nil => exact ⟨[], [], rfl, rfl, hs, .inl rfl⟩
  | cons d ds ih =>
    rw [List.forall_mem_cons] at h
    rw [absorb]
    split
    · rename_i hnext
      obtain ⟨taken, dropped, habsorb, hsplit, hlt, hfull⟩ := ih h.2 hnext
      exact ⟨d :: taken, dropped, habsorb, congrArg (d :: ·) hsplit, hlt, hfull⟩
    · rename_i hnext
      have hd := digitValue_le h.1
      have hfull : significandLimit ≤ 10 * s + 9 := by omega
      exact ⟨[], d :: ds, rfl, rfl, hs, .inr hfull⟩

/-- The decimal of some digits lies in the unit of those before them. -/
theorem unit_bounds (h : ∀ c ∈ ds, c.isDigit = true) (s : ℕ) (p : ℤ) :
    (s : ℚ) * 10 ^ (p + ds.length) ≤ Nat.ofDigitChars 10 ds s * 10 ^ p ∧
      (Nat.ofDigitChars 10 ds s : ℚ) * 10 ^ p ≤ (s + 1) * 10 ^ (p + ds.length) := by
  obtain ⟨hlow, hhigh⟩ := ofDigitChars_bounds h s
  have hp : (0 : ℚ) < 10 ^ p := by positivity
  rw [add_comm p, zpow_add₀ (by norm_num), zpow_natCast, ← mul_assoc, ← mul_assoc]
  constructor
  · exact mul_le_mul_of_nonneg_right (by exact_mod_cast hlow) hp.le
  · exact mul_le_mul_of_nonneg_right (by exact_mod_cast hhigh.le) hp.le

/-- What lies in one unit of an almost full significand is apart by a small factor. -/
theorem within_unit (hs : significandLimit ≤ 10 * s + 9) {u : ℚ} (hu : 0 < u)
    (hv : (s : ℚ) * u ≤ v ∧ v ≤ (s + 1) * u) (hw : (s : ℚ) * u ≤ w ∧ w ≤ (s + 1) * u) :
    Within (1 + 2 ^ (-60 : ℤ)) v w := by
  have hlarge : 2 ^ 60 ≤ s := by
    have hlimit : significandLimit = 2 ^ 64 := rfl
    omega
  have hlarge : (2 : ℚ) ^ 60 ≤ s := by exact_mod_cast hlarge
  have hpos : 0 < (s : ℚ) * u := mul_pos (by linarith [show (0 : ℚ) < 2 ^ 60 by norm_num]) hu
  have hunit : u ≤ 2 ^ (-60 : ℤ) * (s * u) := by
    rw [← mul_assoc, zpow_neg, ← div_eq_inv_mul]
    refine le_mul_of_one_le_left hu.le ?_
    rw [one_le_div (by positivity)]
    exact_mod_cast hlarge
  have hfactor : ∀ {x y : ℚ}, (s : ℚ) * u ≤ x → y ≤ (s + 1) * u → y ≤ (1 + 2 ^ (-60 : ℤ)) * x := by
    intro x y hx hy
    calc y ≤ s * u + u := by linarith
      _ ≤ s * u + 2 ^ (-60 : ℤ) * (s * u) := by linarith
      _ = (1 + 2 ^ (-60 : ℤ)) * (s * u) := by ring
      _ ≤ (1 + 2 ^ (-60 : ℤ)) * x := mul_le_mul_of_nonneg_left hx (by positivity)
  exact ⟨hpos.trans_le hv.1, hpos.trans_le hw.1, hfactor hv.1 hw.2, hfactor hw.1 hv.2⟩

/-- Nothing is apart from itself. -/
theorem within_refl (hv : 0 < v) : Within (1 + 2 ^ (-60 : ℤ)) v v :=
  ⟨hv, hv, le_mul_of_one_le_left hv.le (by norm_num), le_mul_of_one_le_left hv.le (by norm_num)⟩

/-- Digits are dropped where a significand is almost full, and then they make next to no
difference. -/
theorem within_absorbed {unread taken dropped : List Char} {H : ℕ} (e : ℤ)
    (hunread : ∀ c ∈ unread, c.isDigit = true) (htaken : ∀ c ∈ taken, c.isDigit = true)
    (hdropped : ∀ c ∈ dropped, c.isDigit = true)
    (hfull : unread = [] ∨ significandLimit ≤ 10 * H + 9)
    (hfull' : dropped = [] ∨ significandLimit ≤ 10 * Nat.ofDigitChars 10 taken H + 9)
    (hpos : 0 < Nat.ofDigitChars 10 (unread ++ (taken ++ dropped)) H) :
    Within (1 + 2 ^ (-60 : ℤ))
      (Nat.ofDigitChars 10 (unread ++ (taken ++ dropped)) H *
        10 ^ (e - (taken.length + dropped.length)))
      (Nat.ofDigitChars 10 taken H * 10 ^ (e + (unread.length - taken.length))) := by
  rcases hfull with rfl | hfull
  · rw [List.nil_append, Nat.ofDigitChars_append] at hpos ⊢
    generalize Nat.ofDigitChars 10 taken H = S at *
    have hscale : e + (([] : List Char).length - taken.length) =
        e - (taken.length + dropped.length) + (dropped.length : ℤ) := by
      rw [List.length_nil]
      push_cast
      ring
    rw [hscale]
    rcases hfull' with rfl | hfull'
    · rw [Nat.ofDigitChars_nil] at hpos ⊢
      simp only [List.length_nil, Nat.cast_zero, add_zero]
      exact within_refl (by positivity)
    · refine within_unit hfull' (by positivity) (unit_bounds hdropped S _) ⟨le_rfl, ?_⟩
      exact mul_le_mul_of_nonneg_right (by linarith) (by positivity)
  · -- digits behind the point may have taken the place of others before it
    have hall := List.forall_mem_append.mpr
      ⟨hunread, List.forall_mem_append.mpr ⟨htaken, hdropped⟩⟩
    have hbounds := unit_bounds hall H (e - (taken.length + dropped.length))
    have hbounds' := unit_bounds htaken H (e + (unread.length - taken.length))
    have hscale : e - (taken.length + dropped.length) +
        ((unread ++ (taken ++ dropped)).length : ℤ) = e + unread.length := by
      rw [List.length_append, List.length_append]
      push_cast
      ring
    have hscale' : e + (unread.length - taken.length) + (taken.length : ℤ) =
        e + unread.length := by ring
    rw [hscale] at hbounds
    rw [hscale'] at hbounds'
    exact within_unit hfull (by positivity) hbounds hbounds'

/-- **Digits that are dropped** make next to no difference: a number is the significand that is
taken of it, scaled by a power of ten, up to a factor that no double shows. -/
theorem magnitude?_near (h : n.Digital) (hexponent : n.writtenExponent.natAbs < exponentLimit)
    (hpos : 0 < natOfDigits n.allDigits) :
    ∃ S P, n.magnitude? = scale? S P ∧ S < significandLimit ∧
      Within (1 + 2 ^ (-60 : ℤ)) n.decimal (S * 10 ^ P) := by
  obtain ⟨front, unread, hhead, hwhole, hlt, hfull⟩ := absorb_spec h.whole (s := 0) (by decide)
  obtain ⟨taken, dropped, hsignificand, hfraction, hlt', hfull'⟩ := absorb_spec h.fraction hlt
  have hmagnitude := magnitude?_of_absorb hhead hsignificand hexponent
  have hplaces : (unread.length : ℤ) - (((n.fraction.getD []).length - dropped.length : ℕ)) =
      unread.length - taken.length := by
    rw [hfraction, List.length_append, Nat.add_sub_cancel]
  have hdigits : natOfDigits n.allDigits =
      Nat.ofDigitChars 10 (unread ++ (taken ++ dropped)) (Nat.ofDigitChars 10 front 0) := by
    show Nat.ofDigitChars 10 (n.whole ++ n.fraction.getD []) 0 = _
    rw [hfraction]
    conv => lhs; rw [hwhole]
    rw [List.append_assoc, Nat.ofDigitChars_append]
  have hrest := h.fraction
  rw [hfraction, List.forall_mem_append] at hrest
  rw [hplaces] at hmagnitude
  rw [hdigits] at hpos
  refine ⟨_, _, hmagnitude, hlt', ?_⟩
  rw [decimal, hdigits, hfraction, List.length_append, Nat.cast_add]
  exact within_absorbed n.writtenExponent
    (fun c hc => h.whole c (hwhole ▸ List.mem_append_right front hc)) hrest.1 hrest.2 hfull hfull'
    hpos

/-! ## Zeros -/

/-- Zero stays zero, however it is scaled. -/
theorem scale?_zero (p : ℤ) : scale? 0 p = some 0 := by
  rcases p with n | k
  · show scaleUp? (floatOfNat 0) n = _
    rw [scaleUp?, floatOfNat_zero]
    split
    · rename_i hn
      obtain ⟨P, -, hP, hone⟩ := powerOfTen_number hn
      rw [zero_mul_of_pos hP (one_pos.trans_le hone)]
      dsimp only
      rw [isInf_of_number value?_zero, if_neg Bool.false_ne_true]
    · rfl
  · show some (scaleDown (floatOfNat 0) (k + 1)) = _
    rw [scaleDown, floatOfNat_zero]
    split
    · rename_i hn
      obtain ⟨P, -, hP, hone⟩ := powerOfTen_number hn
      rw [zero_div_of_pos hP (one_pos.trans_le hone)]
    · rfl

/-- Digits that are all zeros leave zero, whatever the exponent says. -/
theorem magnitude?_zero (h : natOfDigits n.allDigits = 0) : n.magnitude? = some 0 := by
  have hall : natOfDigits n.allDigits = Nat.ofDigitChars 10 (n.fraction.getD [])
      (Nat.ofDigitChars 10 n.whole 0) := Nat.ofDigitChars_append 0
  rw [hall] at h
  have hwhole : Nat.ofDigitChars 10 n.whole 0 = 0 :=
    Nat.le_zero.mp ((le_ofDigitChars (n.fraction.getD []) _).trans_eq h)
  have hhead : absorb 0 n.whole = (0, []) := by
    rw [absorb_eq (by rw [hwhole]; decide), hwhole]
  rw [hwhole] at h
  have hdigits : absorb 0 (n.fraction.getD []) = (0, []) := by
    rw [absorb_eq (by rw [h]; decide), h]
  rw [magnitude?]
  simp only [hhead, hdigits, scale?_zero]
  split
  · rfl
  · simp

theorem nearestMagnitude_zero (h : natOfDigits n.allDigits = 0) : n.nearestMagnitude = 0 := by
  rw [nearestMagnitude, h, nearestFloat]
  rfl

/-! ## Integers -/

/-- The decimal is rounded once. -/
theorem nearestMagnitude_yields (n : Numeral) : Yields n.decimal n.nearestMagnitude :=
  nearestFloat_yields _ _

/-- Where the decimal is finite, it is so without its sign. -/
theorem number_of_nearest (h : n.nearest.isFinite = true) :
    ∃ q, value? n.nearestMagnitude = some (.number q) := by
  rw [nearest] at h
  cases hn : n.negative with
  | false =>
    rw [hn] at h
    exact number_of_isFinite h
  | true =>
    rw [hn] at h
    exact number_of_finite_neg (isSome_of_yields (nearestMagnitude_yields n)) h

/-- What is left of a number that is not an integer is its magnitude with its sign. -/
theorem value?_cases (h : n.value? = some x) :
    (n.fraction = none ∧ n.exponent = none ∧ natOfDigits n.whole < significandLimit) ∨
      ∃ a, n.magnitude? = some a ∧ x.toFloat = if n.negative then -a else a := by
  rw [Numeral.value?] at h
  split at h
  · rename_i hinteger
    simp only [Bool.and_eq_true, Option.isNone_iff_eq_none, decide_eq_true_eq] at hinteger
    exact .inl ⟨hinteger.1.1, hinteger.1.2, hinteger.2⟩
  · obtain ⟨y, hy, rfl⟩ := Option.map_eq_some_iff.mp h
    obtain ⟨a, ha, rfl⟩ := Option.map_eq_some_iff.mp hy
    exact .inr ⟨a, ha, rfl⟩

/-- An integer of one machine word is the double nearest to its digits, with its sign. -/
theorem value?_integer (h : n.value? = some x)
    (hfraction : n.fraction = none) (hexponent : n.exponent = none)
    (hlt : natOfDigits n.whole < significandLimit) :
    x.toFloat = if n.negative then -floatOfNat (natOfDigits n.whole)
      else floatOfNat (natOfDigits n.whole) := by
  rw [Numeral.value?, hfraction, hexponent, if_pos (by simpa using hlt)] at h
  cases hn : n.negative with
  | false =>
    rw [hn] at h
    obtain rfl := Option.some.inj h
    rw [Number.toFloat, floatOfInt, if_neg (not_lt.mpr (Int.natCast_nonneg _)), Int.natAbs_natCast,
      if_neg Bool.false_ne_true]
  | true =>
    rw [hn, if_neg (by decide)] at h
    rw [if_pos rfl]
    split at h
    · rename_i hpos
      have hpos : 0 < natOfDigits n.whole := by
        simp only [Bool.and_eq_true, decide_eq_true_eq] at hpos
        exact hpos.1
      obtain rfl := Option.some.inj h
      rw [Number.toFloat, floatOfInt, if_pos (by omega), Int.natAbs_neg, Int.natAbs_natCast]
    · obtain rfl := Option.some.inj h
      rfl

/-- Short decimals are far from the least double. -/
theorem decimal_large (hpos : 0 < natOfDigits n.allDigits)
    (hp : (n.writtenExponent - (n.fraction.getD []).length).natAbs ≤ 22) :
    2 ^ (-1022 : ℤ) ≤ n.decimal := by
  have hlimit : (2 : ℚ) ^ (-1022 : ℤ) ≤ 10 ^ (-22 : ℤ) := by
    have hnat : 10 ^ 22 ≤ 2 ^ 1022 := by decide +kernel
    rw [zpow_neg, zpow_neg, inv_le_inv₀ (by positivity) (by positivity)]
    exact_mod_cast hnat
  have hone : (1 : ℚ) ≤ natOfDigits n.allDigits := by exact_mod_cast hpos
  calc (2 : ℚ) ^ (-1022 : ℤ) ≤ 10 ^ (-22 : ℤ) := hlimit
    _ ≤ 10 ^ (n.writtenExponent - (n.fraction.getD []).length) :=
        zpow_le_zpow_right₀ (by norm_num) (by omega)
    _ ≤ n.decimal := le_mul_of_one_le_left (by positivity) hone

/-- An integer of one machine word is rounded like a decimal. -/
theorem floatOfNat_nearest (hfraction : n.fraction = none) (hexponent : n.exponent = none)
    (hlt : natOfDigits n.whole < significandLimit)
    (hq : value? n.nearestMagnitude = some (.number q)) :
    floatOfNat (natOfDigits n.whole) = n.nearestMagnitude := by
  have hall : n.allDigits = n.whole := by
    rw [allDigits, hfraction, Option.getD_none, List.append_nil]
  have hscale : n.writtenExponent - ((n.fraction.getD []).length : ℤ) = 0 := by
    rw [writtenExponent, hexponent, hfraction]
    rfl
  rcases Nat.eq_zero_or_pos (natOfDigits n.whole) with hzero | hpos
  · rw [nearestMagnitude_zero (hall ▸ hzero), hzero, floatOfNat_zero]
  · have hdecimal : n.decimal = natOfDigits n.whole := by
      rw [decimal, hall, hscale, zpow_zero, mul_one]
    rw [← hall] at hpos
    refine eq_of_yields (floatOfNat_yields hlt) ?_ ?_ hq
    · exact hdecimal ▸ nearestMagnitude_yields n
    · exact hdecimal ▸ decimal_large hpos (by rw [hscale]; decide)

/-! ## Numbers that are read alike -/

/-- The number is zero, or an integer of one machine word, or its digits and its power of ten are
doubles. -/
def Numeral.exact (n : Numeral) : Bool :=
  natOfDigits n.allDigits == 0 ||
    n.fraction.isNone && n.exponent.isNone && natOfDigits n.whole < significandLimit ||
    natOfDigits n.allDigits < 2 ^ 53 && n.writtenExponent.natAbs < exponentLimit &&
      (n.writtenExponent - (n.fraction.getD []).length).natAbs ≤ 22

/-- Digits and a power of ten that are doubles are scaled without any rounding but the last one. -/
theorem scale?_yields {D : ℕ} (hD : D < 2 ^ 53) (hp : p.natAbs ≤ 22)
    (h : scale? D p = some a) : Yields (D * 10 ^ p) a := by
  rcases p with k | k
  · have hk : k ≤ 22 := hp
    have h : scaleUp? (floatOfNat D) k = some a := h
    rw [scaleUp?, if_pos (show k ≤ tableSize from hk.trans (by decide))] at h
    dsimp only at h
    split at h
    · cases h
    · obtain rfl := Option.some.inj h
      rw [Int.ofNat_eq_natCast, zpow_natCast]
      exact mul_yields (floatOfNat_exact hD) (powerOfTen_exact hk)
  · have hk : k + 1 ≤ 22 := hp
    obtain rfl := Option.some.inj h
    rw [zpow_negSucc, ← div_eq_mul_inv, scaleDown,
      if_pos (show k + 1 ≤ tableSize from hk.trans (by decide))]
    exact div_yields (floatOfNat_exact hD) (powerOfTen_exact hk) (by positivity)

/-- **An exact number** is read alike by both readers. -/
theorem toFloat_exact (hexact : n.exact = true) (h : n.value? = some x)
    (hfinite : n.nearest.isFinite = true) : x.toFloat = n.nearest := by
  obtain ⟨q, hq⟩ := number_of_nearest hfinite
  rw [nearest]
  by_cases hinteger :
      n.fraction = none ∧ n.exponent = none ∧ natOfDigits n.whole < significandLimit
  · obtain ⟨hfraction, hexponent, hlt⟩ := hinteger
    rw [value?_integer h hfraction hexponent hlt, floatOfNat_nearest hfraction hexponent hlt hq]
  obtain ⟨a, ha, hvalue⟩ := (value?_cases h).resolve_left hinteger
  rw [hvalue]
  suffices hmagnitude : a = n.nearestMagnitude by rw [hmagnitude]
  rcases Nat.eq_zero_or_pos (natOfDigits n.allDigits) with hzero | hpos
  · rw [magnitude?_zero hzero] at ha
    rw [nearestMagnitude_zero hzero, Option.some.inj ha]
  · obtain ⟨hdigits, hexponent, hscale⟩ : natOfDigits n.allDigits < 2 ^ 53 ∧
        n.writtenExponent.natAbs < exponentLimit ∧
        (n.writtenExponent - (n.fraction.getD []).length).natAbs ≤ 22 := by
      simp only [Numeral.exact, Bool.or_eq_true, Bool.and_eq_true, beq_iff_eq, decide_eq_true_eq,
        Option.isNone_iff_eq_none, hpos.ne', false_or, and_assoc] at hexact
      exact hexact.resolve_left hinteger
    rw [magnitude?_eq (hdigits.trans (by decide)) hexponent] at ha
    exact eq_of_yields (scale?_yields hdigits hscale ha) (nearestMagnitude_yields n)
      (decimal_large hpos hscale) hq

/-! ## Numbers that are read nearly alike -/

/-- What the digits are scaled to is near the double nearest to them. -/
theorem magnitude?_drift (hdigital : n.Digital)
    (hexponent : n.writtenExponent.natAbs < exponentLimit) (ha : n.magnitude? = some a)
    (hq : value? n.nearestMagnitude = some (.number q)) :
    ∃ r, value? a = some (.number r) ∧ 0 ≤ q ∧
      |r - q| ≤ 2 ^ (-49 : ℤ) * q + 2 ^ (-1073 : ℤ) := by
  rcases Nat.eq_zero_or_pos (natOfDigits n.allDigits) with hzero | hpos
  · rw [magnitude?_zero hzero] at ha
    rw [nearestMagnitude_zero hzero, value?_zero, Option.some_inj, number_inj] at hq
    obtain rfl := Option.some.inj ha
    subst hq
    refine ⟨0, value?_zero, le_rfl, ?_⟩
    rw [sub_self, abs_zero]
    positivity
  · obtain ⟨S, P, hscale, hlt, hnear⟩ := magnitude?_near hdigital hexponent hpos
    have hS : 0 < S := Nat.pos_of_ne_zero fun hS => by
      have := hnear.pos'
      rw [hS, Nat.cast_zero, zero_mul] at this
      exact lt_irrefl _ this
    obtain ⟨z, r, hscaled, hr, hvalue⟩ := scaled_of_scale? hS hlt (hscale ▸ ha)
    obtain ⟨q', hrounds, hq'⟩ := (nearestMagnitude_yields n).number (isInf_of_number hq)
    obtain rfl : q = q' := number_inj.mp (Option.some_inj.mp (hq.symm.trans hq'))
    have hboth : Within (1 + 12 * 2 ^ (-53 : ℤ)) n.decimal z :=
      (hnear.trans hscaled (by norm_num) (by norm_num)).weaken (by norm_num)
    exact ⟨r, hvalue, hrounds.nonneg hnear.pos.le, near_of_rounds hboth hrounds hr⟩

/-- A sign before both sides. -/
theorem value?_signed (h : value? a = some (.number q)) (negative : Bool) :
    value? (if negative then -a else a) = some (.number (if negative then -q else q)) := by
  cases negative with
  | false => exact h
  | true => exact value?_neg h

/-- **Any number** is read nearly alike: a few units in the last place away, or a few of the least
number. -/
theorem toFloat_near (hdigital : n.Digital)
    (hexponent : n.writtenExponent.natAbs < exponentLimit) (h : n.value? = some x)
    (hfinite : n.nearest.isFinite = true) :
    ∃ q r : ℚ, value? n.nearest = some (.number q) ∧ value? x.toFloat = some (.number r) ∧
      |r - q| ≤ 2 ^ (-49 : ℤ) * |q| + 2 ^ (-1073 : ℤ) := by
  obtain ⟨q, hq⟩ := number_of_nearest hfinite
  rcases value?_cases h with ⟨hfraction, hnone, hlt⟩ | ⟨a, ha, hvalue⟩
  · have hsame : x.toFloat = n.nearest := by
      rw [value?_integer h hfraction hnone hlt, floatOfNat_nearest hfraction hnone hlt hq, nearest]
    rw [hsame]
    refine ⟨_, _, value?_signed hq n.negative, value?_signed hq n.negative, ?_⟩
    rw [sub_self, abs_zero]
    positivity
  · obtain ⟨r, hr, hnonneg, hnear⟩ := magnitude?_drift hdigital hexponent ha hq
    refine ⟨_, _, value?_signed hq n.negative, hvalue ▸ value?_signed hr n.negative, ?_⟩
    cases n.negative with
    | false => exact (abs_of_nonneg hnonneg).symm ▸ hnear
    | true =>
      show |-r - -q| ≤ 2 ^ (-49 : ℤ) * |-q| + 2 ^ (-1073 : ℤ)
      rwa [abs_neg, abs_of_nonneg hnonneg, neg_sub_neg, abs_sub_comm]

end VehiclePrivacy.Json
