import VehiclePrivacy.Proofs.Json.Drift
import VehiclePrivacy.Proofs.Json.Scanning

/-!
# The numbers that readers give

An integer fits a machine word, and a float is finite: the significand is, scaling down keeps it so,
and scaling up that does not is no number (`legible_of_value?`). Legible scalars are written like
what they are, and are read as what they were, but for floats, which are reread (`legible_scalar`).
-/

namespace VehiclePrivacy.Json

open Decimal Binary64 Numeral

variable {n : Numeral} {f x : Float} {s : Scalar}

/-- The float is finite and not negative. -/
def Magnitude (x : Float) : Prop := ∃ q : ℚ, value? x = some (.number q) ∧ 0 ≤ q

theorem magnitude_div {k : ℕ} (h : Magnitude f) (hk : k ≤ tableSize) :
    Magnitude (f / powerOfTen k) := by
  obtain ⟨q, hq, hpos⟩ := h
  obtain ⟨P, -, hP, hone⟩ := powerOfTen_number hk
  obtain ⟨z, hrounds, hz⟩ := div_number hq hP hpos hone
  exact ⟨z, hz, hrounds.nonneg (div_nonneg hpos (zero_le_one.trans hone))⟩

theorem magnitude_scaleDown {k : ℕ} (h : Magnitude f) : Magnitude (scaleDown f k) := by
  induction k using Nat.strongRecOn generalizing f with
  | ind k ih =>
    rw [scaleDown]
    split
    · rename_i hk
      exact magnitude_div h hk
    · split
      · exact h
      · rename_i hk _
        have htable : tableSize = 308 := rfl
        exact ih (k - tableSize) (by omega) (magnitude_div h le_rfl)

theorem magnitude_scaleUp? {k : ℕ} (h : Magnitude f) (hx : scaleUp? f k = some x) :
    Magnitude x := by
  rw [scaleUp?] at hx
  split at hx
  · rename_i hk
    dsimp only at hx
    split at hx
    · cases hx
    · rename_i hfinite
      obtain rfl := Option.some.inj hx
      obtain ⟨q, hq, hpos⟩ := h
      obtain ⟨P, -, hP, hone⟩ := powerOfTen_number hk
      obtain ⟨y, hrounds, hy⟩ := (mul_yields hq hP).number (Bool.not_eq_true _ ▸ hfinite)
      exact ⟨y, hy, hrounds.nonneg (mul_nonneg hpos (zero_le_one.trans hone))⟩
  · split at hx
    · obtain rfl := Option.some.inj hx
      exact h
    · cases hx

theorem absorb_lt {significand : ℕ} (h : significand < significandLimit) (ds : List Char) :
    (absorb significand ds).1 < significandLimit := by
  induction ds generalizing significand with
  | nil => exact h
  | cons d ds ih =>
    rw [absorb]
    split
    · rename_i hnext
      exact ih hnext
    · exact h

theorem magnitude_scale? {D : ℕ} {p : ℤ} (hD : D < significandLimit) (h : scale? D p = some x) :
    Magnitude x := by
  obtain ⟨q, hrounds, hq⟩ := floatOfNat_number hD
  have hmagnitude : Magnitude (floatOfNat D) := ⟨q, hq, hrounds.nonneg (Nat.cast_nonneg D)⟩
  cases p with
  | ofNat k => exact magnitude_scaleUp? hmagnitude h
  | negSucc k =>
    obtain rfl := Option.some.inj h
    exact magnitude_scaleDown hmagnitude

theorem magnitude_zero : Magnitude 0 := ⟨0, by with_unfolding_all rfl, le_rfl⟩

theorem magnitude_of_magnitude? (h : n.magnitude? = some x) : Magnitude x := by
  rw [magnitude?] at h
  have hlimit : (absorb (absorb 0 n.whole).1 (n.fraction.getD [])).1 < significandLimit :=
    absorb_lt (absorb_lt (by decide) _) _
  dsimp only at h
  split at h
  · exact magnitude_scale? hlimit h
  · split at h
    · exact magnitude_scale? hlimit h
    · split at h
      · cases h
      · obtain rfl := Option.some.inj h
        exact magnitude_zero

theorem finiteFloat_sign (h : Magnitude x) (negative : Bool) :
    FiniteFloat (if negative then -x else x) := by
  obtain ⟨q, hq, -⟩ := h
  cases negative with
  | false => exact ⟨q, hq⟩
  | true => exact ⟨-q, value?_neg hq⟩

/-- The numbers that a reader gives: integers of a machine word, and finite floats. -/
def Legible (s : Scalar) : Prop :=
  match s with
  | .number (.integer i) => -2 ^ 63 ≤ i ∧ i < 2 ^ 64
  | .number (.real x) => FiniteFloat x
  | _ => True

/-- **A reader gives legible numbers only.** -/
theorem legible_of_value? {number : Number} (h : n.value? = some number) :
    Legible (.number number) := by
  rw [Numeral.value?] at h
  split at h
  · rename_i hinteger
    have hlimit : natOfDigits n.whole < 2 ^ 64 :=
      of_decide_eq_true (Bool.and_eq_true _ _ ▸ hinteger).2
    split at h
    · obtain rfl := Option.some.inj h
      exact ⟨by omega, by exact_mod_cast hlimit⟩
    · split at h
      · rename_i hsmall
        obtain rfl := Option.some.inj h
        have hle : natOfDigits n.whole ≤ 2 ^ 63 :=
          of_decide_eq_true (Bool.and_eq_true _ _ ▸ hsmall).2
        exact ⟨by omega, by omega⟩
      · obtain rfl := Option.some.inj h
        obtain ⟨q, -, hq⟩ := floatOfNat_number hlimit
        exact ⟨-q, value?_neg hq⟩
  · obtain ⟨y, hy, rfl⟩ := Option.map_eq_some_iff.mp h
    obtain ⟨m, hm, rfl⟩ := Option.map_eq_some_iff.mp hy
    exact finiteFloat_sign (magnitude_of_magnitude? hm) n.negative

/-! ## Legible scalars -/

/-- The parts of an integer. -/
def integerNumeral (i : Int) : Numeral := ⟨decide (i < 0), Nat.toDigits 10 i.natAbs, none, none⟩

theorem integerNumeral_chars (i : Int) : (integerNumeral i).chars = integerChars i := by
  have hsign : (if (decide (i < 0)) = true then ['-'] else []) = if i < 0 then ['-'] else [] := by
    simp only [decide_eq_true_eq]
  show (if (decide (i < 0)) = true then ['-'] else []) ++ (Nat.toDigits 10 i.natAbs ++ []) = _
  rw [List.append_nil, hsign]
  rfl

theorem integerNumeral_wellFormed (i : Int) : (integerNumeral i).WellFormed := by
  refine ⟨digitRun_toDigits _, fun ds heq => ?_, nofun, nofun⟩
  have heq : Nat.toDigits 10 i.natAbs = '0' :: ds := heq
  rcases Nat.eq_zero_or_pos i.natAbs with hzero | hpos
  · rw [hzero, Nat.toDigits_zero] at heq
    exact (List.cons.inj heq).2.symm
  · exact absurd rfl (toDigits_head hpos '0' ds heq)

/-- An integer of a machine word is read as what it is. -/
theorem integerNumeral_value? {i : Int} (hlow : -2 ^ 63 ≤ i) (hhigh : i < 2 ^ 64) :
    (integerNumeral i).value? = some (.integer i) := by
  have hlimit : i.natAbs < significandLimit := by
    show i.natAbs < 2 ^ 64
    omega
  have hparts : (integerNumeral i).whole = Nat.toDigits 10 i.natAbs ∧
      (integerNumeral i).negative = decide (i < 0) ∧
      ((integerNumeral i).fraction.isNone && (integerNumeral i).exponent.isNone) = true :=
    ⟨rfl, rfl, rfl⟩
  obtain ⟨hwhole, hnegative, hinteger⟩ := hparts
  rw [Numeral.value?, hinteger, hwhole, hnegative, natOfDigits_toDigits, decide_eq_true hlimit]
  by_cases hi : i < 0
  · have hsmall : (decide (0 < i.natAbs) && decide (i.natAbs ≤ Nat.pow 2 63)) = true := by
      refine Bool.and_eq_true _ _ ▸ ⟨decide_eq_true (by omega), decide_eq_true ?_⟩
      show i.natAbs ≤ 2 ^ 63
      omega
    rw [decide_eq_true hi, hsmall]
    show some (Number.integer (-(i.natAbs : ℤ))) = _
    rw [Int.ofNat_natAbs_of_nonpos hi.le, neg_neg]
  · rw [decide_eq_false hi]
    show some (Number.integer (i.natAbs : ℤ)) = _
    rw [Int.natAbs_of_nonneg (not_lt.mp hi)]

/-- What becomes of a scalar that is printed and read: floats are reread. -/
def rereadScalar (s : Scalar) : Scalar :=
  match s with
  | .number (.real x) => .number (.real (reread x))
  | s => s

theorem scalar_number {lexeme : List Char} {number : Number}
    (h : numberValue? lexeme = some number) :
    (Token.number lexeme).scalar = .ok (.number number) := by
  rw [Token.scalar, h]

/-- **A legible scalar** is written like what it is, and read as what it was, but for floats. -/
theorem legible_scalar (h : Legible s) :
    Spelled s ∧ (scalarToken s).scalar = .ok (rereadScalar s) := by
  cases s with
  | null => exact ⟨nofun, rfl⟩
  | bool b => exact ⟨nofun, rfl⟩
  | string t => exact ⟨nofun, rfl⟩
  | number number =>
    cases number with
    | integer i =>
      have hchars := integerNumeral_chars i
      have hvalue : numberValue? (integerChars i) = some (.integer i) := by
        rw [← hchars, numberValue?, ofChars_chars (integerNumeral_wellFormed i)]
        exact integerNumeral_value? h.1 h.2
      exact ⟨fun _ _ => ⟨_, integerNumeral_wellFormed i, hchars.symm⟩, scalar_number hvalue⟩
    | real x =>
      obtain ⟨n, hwf, hchars, hvalue⟩ := numberValue?_chars h
      exact ⟨fun _ _ => ⟨n, hwf, hchars.symm⟩, scalar_number hvalue⟩

end VehiclePrivacy.Json
