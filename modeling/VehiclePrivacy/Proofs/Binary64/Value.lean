import VehiclePrivacy.Proofs.Binary64.Rounding
import Mathlib

/-!
# The numbers that doubles stand for

A double is a rational number, or one of the infinities, or no number. `value?` says which, with the
infinities below and above all rationals, and doubles are compared as their values are
(`le_iff`). That rests on how doubles are stored: the exponent is the least one that leaves 53 bits
(`Canonical`), so that the greater exponent makes the greater number.

`value?_pack` says what becomes of a number that is stored: it keeps its value unless that is too
large, and then becomes infinite.
-/

namespace VehiclePrivacy.Binary64

open Float.Model Float.Model.UnpackedFloat

/-- A rational number or an infinity. -/
abbrev Value := WithBot (WithTop ℚ)

/-- A number as a value. -/
abbrev Value.number (x : ℚ) : Value := ((x : WithTop ℚ) : Value)

/-- A number with a sign put before it. -/
def signed (s : Sign) (x : ℚ) : ℚ :=
  match s with
  | .negative => -x
  | .positive => x

/-- The value that an unpacked double stands for, if it is a number or an infinity. -/
def unpackedValue? : UnpackedFloat → Option Value
  | .notANumber => none
  | .infinity .negative => some ⊥
  | .infinity .positive => some ((⊤ : WithTop ℚ) : Value)
  | .zero _ => some (.number 0)
  | .finite s m e _ => some (.number (signed s (m * 2 ^ e)))

/-- The value that a double stands for, if it is a number or an infinity. -/
def value? (a : Float) : Option Value := unpackedValue? a.toModel.unpack

/-! ## Canonical form -/

/-- The exponent is the least that leaves a mantissa of 53 bits, and not below the least of all. -/
structure Canonical (m : ℕ) (e : ℤ) : Prop where
  bits : m < 2 ^ 53
  least : -1074 ≤ e
  tight : e = -1074 ∨ 2 ^ 52 ≤ m

/-! ## Packing and unpacking -/

/-- The unpacked double with the given parts. -/
def assemble (s : Sign) (exponent : BitVec 11) (mantissa : BitVec 52) : UnpackedFloat :=
  if exponent = -1#11 then
    if mantissa = 0#52 then .infinity s else .notANumber
  else if exponent = 0#11 then
    if h : mantissa = 0#52 then .zero s
    else .finite s mantissa.toNat (-1074)
      (Nat.pos_of_ne_zero fun h0 => h (BitVec.eq_of_toNat_eq h0))
  else .finite s (2 ^ 52 + mantissa.toNat) (exponent.toNat - 1075) (by omega)

theorem finite_congr {s : Sign} {m m' : ℕ} {e e' : ℤ} {h : 0 < m} {h' : 0 < m'} (hm : m = m')
    (he : e = e') : UnpackedFloat.finite s m e h = .finite s m' e' h' := by
  subst hm he
  rfl

theorem unpack_eq (b : BitVec Format.binary64.numBits) :
    UnpackedFloat.unpack Format.binary64 b =
      assemble (Sign.ofBitVec (unpackSign b)) (unpackExponent b) (unpackMantissa b) := by
  unfold UnpackedFloat.unpack assemble
  dsimp only
  split
  · rfl
  · split
    · rename_i h
      split
      · rfl
      · refine finite_congr rfl ?_
        rw [h]
        rfl
    · refine finite_congr ?_ ?_
      · rw [BitVec.toNat_append, ← Nat.shiftLeft_add_eq_or_of_lt (BitVec.isLt _)]
        rfl
      · rfl

theorem unpack_packComponents (s : Sign) (exponent : BitVec 11) (mantissa : BitVec 52) :
    UnpackedFloat.unpack Format.binary64 (packComponents Format.binary64 s exponent mantissa) =
      assemble s exponent mantissa := by
  rw [unpack_eq]
  congr 1
  · rw [unpackSign_packComponents, Sign.ofBitVec_toBitVec]
  · exact unpackExponent_packComponents
  · exact unpackMantissa_packComponents

theorem unpack_pack_eq (u : UnpackedFloat) :
    (Float.Model.pack u).unpack =
      UnpackedFloat.unpack Format.binary64 (UnpackedFloat.pack Format.binary64 u) := rfl

theorem assemble_normal (s : Sign) {exponent : BitVec 11} {mantissa : BitVec 52}
    (h : 0 < exponent.toNat ∧ exponent.toNat < 2047) :
    assemble s exponent mantissa =
      .finite s (2 ^ 52 + mantissa.toNat) (exponent.toNat - 1075) (by omega) := by
  rw [assemble, if_neg, if_neg]
  · intro h0
    rw [h0] at h
    exact absurd h.1 (by decide)
  · intro h0
    rw [h0] at h
    exact absurd h.2 (by decide)

theorem canonical_assemble {s s' : Sign} {exponent : BitVec 11} {mantissa : BitVec 52} {m : ℕ}
    {e : ℤ} {h : 0 < m} (hv : assemble s exponent mantissa = .finite s' m e h) :
    Canonical m e ∧ e ≤ 971 := by
  have hexponent : exponent.toNat < 2048 := exponent.isLt
  have hmantissa : mantissa.toNat < 2 ^ 52 := mantissa.isLt
  by_cases hlow : exponent.toNat = 0
  · obtain rfl : exponent = 0#11 := BitVec.eq_of_toNat_eq hlow
    rw [assemble, if_neg (by decide), if_pos rfl] at hv
    split at hv
    · cases hv
    · cases hv
      exact ⟨⟨by omega, le_rfl, .inl rfl⟩, by omega⟩
  · by_cases hhigh : exponent.toNat = 2047
    · obtain rfl : exponent = -1#11 := BitVec.eq_of_toNat_eq hhigh
      rw [assemble, if_pos rfl] at hv
      split at hv <;> cases hv
    · rw [assemble_normal _ ⟨by omega, by omega⟩] at hv
      cases hv
      exact ⟨⟨by omega, by omega, .inr (by omega)⟩, by omega⟩

/-- Doubles are stored in canonical form, with an exponent that is not too large. -/
theorem canonical_unpack {v : Float.Model} {s : Sign} {m : ℕ} {e : ℤ} {h : 0 < m}
    (hv : v.unpack = .finite s m e h) : Canonical m e ∧ e ≤ 971 := by
  rw [Float.Model.unpack, unpack_eq] at hv
  exact canonical_assemble hv

/-- A canonical number that is stored stays as it is, if its exponent is not too large. -/
theorem unpack_pack {s : Sign} {m : ℕ} {e : ℤ} (hm : 0 < m) (h : Canonical m e) (he : e ≤ 971) :
    (Float.Model.pack (.finite s m e hm)).unpack = .finite s m e hm := by
  have hleast := h.least
  have hbits := h.bits
  have hbiased : (e + Format.binary64.exponentBias +
      Format.binary64.mantissaBitsWithoutImplicit).toNat = (e + 1075).toNat := by
    rw [add_assoc]
    rfl
  rw [unpack_pack_eq, UnpackedFloat.pack]
  dsimp only
  rw [hbiased, if_neg (show ¬ 2 ^ 11 ≤ (e + 1075).toNat + 1 by omega)]
  by_cases hnormal : 2 ^ 52 ≤ m
  · -- the leading bit is not stored, and put back by `assemble`
    have hlog : m.log2 + 1 = Format.binary64.mantissaBits := by
      have hlog2 : m.log2 = 52 := (Nat.log2_eq_iff hm.ne').mpr ⟨hnormal, hbits⟩
      rw [hlog2]
      rfl
    have hexp : (BitVec.ofNat 11 (e + 1075).toNat).toNat = (e + 1075).toNat := by
      rw [BitVec.toNat_ofNat, Nat.mod_eq_of_lt (by omega)]
    rw [if_pos hlog, unpack_packComponents, assemble_normal _ (by rw [hexp]; omega)]
    refine finite_congr ?_ ?_
    · rw [BitVec.toNat_ofNat]
      omega
    · rw [hexp]
      omega
  · have hsub : e = -1074 := h.tight.resolve_right hnormal
    have hlog : m.log2 + 1 ≠ Format.binary64.mantissaBits := by
      have hlt : m.log2 < 52 := (Nat.log2_lt hm.ne').mpr (by omega)
      show m.log2 + 1 ≠ 53
      omega
    have hmantissa : (BitVec.ofNat 52 m).toNat = m := by
      rw [BitVec.toNat_ofNat, Nat.mod_eq_of_lt (by omega)]
    rw [if_neg hlog, unpack_packComponents, assemble, if_neg (by decide), if_pos rfl, dif_neg]
    · exact finite_congr hmantissa hsub.symm
    · intro h0
      rw [h0] at hmantissa
      exact hm.ne hmantissa

/-- A number whose exponent is too large becomes infinite when it is stored. -/
theorem unpack_pack_large {s : Sign} {m : ℕ} {e : ℤ} (hm : 0 < m) (he : 971 < e) :
    (Float.Model.pack (.finite s m e hm)).unpack = .infinity s := by
  have hbiased : (e + Format.binary64.exponentBias +
      Format.binary64.mantissaBitsWithoutImplicit).toNat = (e + 1075).toNat := by
    rw [add_assoc]
    rfl
  rw [unpack_pack_eq, UnpackedFloat.pack]
  dsimp only
  rw [hbiased, if_pos (show 2 ^ 11 ≤ (e + 1075).toNat + 1 by omega), packedInfinity,
    unpack_packComponents]
  rfl

theorem unpack_pack_zero (s : Sign) : (Float.Model.pack (.zero s)).unpack = .zero s := by
  rw [unpack_pack_eq, UnpackedFloat.pack, packedZero, unpack_packComponents]
  rfl

/-! ## Comparison -/

variable {m m' : ℕ} {e e' : ℤ}

/-- Of two canonical numbers, the one with the greater exponent is greater. -/
theorem Canonical.lt_of_lt (h : Canonical m e) (h' : Canonical m' e') (he : e < e') :
    (m : ℚ) * 2 ^ e < m' * 2 ^ e' := by
  have hm : (m : ℚ) < 2 ^ (53 : ℤ) := by exact_mod_cast h.bits
  have hm' : (2 : ℚ) ^ (52 : ℤ) ≤ m' := by
    exact_mod_cast h'.tight.resolve_left (by have := h.least; omega)
  calc (m : ℚ) * 2 ^ e < 2 ^ (53 : ℤ) * 2 ^ e := by
        exact mul_lt_mul_of_pos_right hm (two_zpow_pos e)
    _ = 2 ^ (53 + e) := (two_zpow_add _ _).symm
    _ ≤ 2 ^ (52 + e') := two_zpow_le.mpr (by omega)
    _ = 2 ^ (52 : ℤ) * 2 ^ e' := two_zpow_add _ _
    _ ≤ m' * 2 ^ e' := by gcongr

/-- Canonical numbers are compared by their exponents, then by their mantissas. -/
theorem Canonical.compares (h : Canonical m e) (h' : Canonical m' e') :
    ((compare e e').then (compare m m')).Compares ((m : ℚ) * 2 ^ e) (m' * 2 ^ e') := by
  rcases lt_trichotomy e e' with hlt | rfl | hgt
  · rw [(compare_iff e e').mpr (show Ordering.lt.Compares e e' from hlt)]
    exact h.lt_of_lt h' hlt
  · rw [(compare_iff e e).mpr (show Ordering.eq.Compares e e from rfl)]
    have hpos := two_zpow_pos e
    rcases lt_trichotomy m m' with hlt | rfl | hgt
    · rw [(compare_iff m m').mpr (show Ordering.lt.Compares m m' from hlt)]
      exact mul_lt_mul_of_pos_right (by exact_mod_cast hlt) hpos
    · rw [(compare_iff m m).mpr (show Ordering.eq.Compares m m from rfl)]
      exact rfl
    · rw [(compare_iff m m').mpr (show Ordering.gt.Compares m m' from hgt)]
      exact mul_lt_mul_of_pos_right (by exact_mod_cast hgt) hpos
  · rw [(compare_iff e e').mpr (show Ordering.gt.Compares e e' from hgt)]
    exact h'.lt_of_lt h hgt

/-- The parts of an unpacked double are in canonical form. -/
def UnpackedCanonical : UnpackedFloat → Prop
  | .finite _ m e _ => Canonical m e
  | _ => True

theorem unpackedCanonical (v : Float.Model) : UnpackedCanonical v.unpack := by
  cases hv : v.unpack with
  | finite s m e h => exact (canonical_unpack hv).1
  | _ => trivial

theorem number_inj {x y : ℚ} : Value.number x = Value.number y ↔ x = y :=
  WithBot.coe_inj.trans WithTop.coe_inj

theorem number_lt {x y : ℚ} : Value.number x < Value.number y ↔ x < y := by
  rw [WithBot.coe_lt_coe, WithTop.coe_lt_coe]

theorem number_le {x y : ℚ} : Value.number x ≤ Value.number y ↔ x ≤ y := by
  rw [WithBot.coe_le_coe, WithTop.coe_le_coe]

theorem number_compares {o : Ordering} {x y : ℚ} :
    o.Compares (Value.number x) (Value.number y) ↔ o.Compares x y := by
  cases o with
  | lt => exact number_lt
  | gt => exact number_lt
  | eq => exact number_inj

theorem signed_compares {o : Ordering} {x y : ℚ} :
    o.Compares (signed .negative x) (signed .negative y) ↔ o.Compares y x := by
  cases o with
  | lt => exact neg_lt_neg_iff
  | gt => exact neg_lt_neg_iff
  | eq => exact neg_inj.trans eq_comm

theorem finite_pos {m : ℕ} (h : 0 < m) (e : ℤ) : (0 : ℚ) < m * 2 ^ e :=
  mul_pos (by exact_mod_cast h) (two_zpow_pos e)

theorem bot_lt_number (x : ℚ) : (⊥ : Value) < Value.number x := WithBot.bot_lt_coe _

theorem number_lt_top (x : ℚ) : Value.number x < ((⊤ : WithTop ℚ) : Value) :=
  WithBot.coe_lt_coe.mpr (WithTop.coe_lt_top x)

theorem bot_lt_top_value : (⊥ : Value) < ((⊤ : WithTop ℚ) : Value) := WithBot.bot_lt_coe _

/-- An unpacked double that stands for a number is zero or finite. -/
theorem unpacked_of_number {u : UnpackedFloat} {x : ℚ} (h : unpackedValue? u = some (.number x)) :
    (∃ s, u = .zero s ∧ x = 0) ∨ ∃ s m e hm, u = .finite s m e hm ∧ x = signed s (m * 2 ^ e) := by
  cases u with
  | notANumber => cases h
  | infinity s => cases s <;> cases h
  | zero s => exact .inl ⟨s, rfl, (number_inj.mp (Option.some_inj.mp h)).symm⟩
  | finite s m e hm => exact .inr ⟨s, m, e, hm, rfl, (number_inj.mp (Option.some_inj.mp h)).symm⟩

/-- Numbers are compared by their signs, and behind equal signs by the canonical form. -/
theorem compare_numbers {u v : UnpackedFloat} {x y : ℚ} (hu : UnpackedCanonical u)
    (hv : UnpackedCanonical v) (hx : unpackedValue? u = some (.number x))
    (hy : unpackedValue? v = some (.number y)) :
    ∃ o, u.compare v = some o ∧ o.Compares x y := by
  rcases unpacked_of_number hx with ⟨s, rfl, rfl⟩ | ⟨s, m, e, hm, rfl, rfl⟩
  · rcases unpacked_of_number hy with ⟨s', rfl, rfl⟩ | ⟨s', m', e', hm', rfl, rfl⟩
    · exact ⟨.eq, rfl, rfl⟩
    · have hpos := finite_pos hm' e'
      cases s' with
      | negative => exact ⟨.gt, rfl, neg_lt_zero.mpr hpos⟩
      | positive => exact ⟨.lt, rfl, hpos⟩
  · have hpos := finite_pos hm e
    rcases unpacked_of_number hy with ⟨s', rfl, rfl⟩ | ⟨s', m', e', hm', rfl, rfl⟩
    · cases s with
      | negative => exact ⟨.lt, rfl, neg_lt_zero.mpr hpos⟩
      | positive => exact ⟨.gt, rfl, hpos⟩
    · have hpos' := finite_pos hm' e'
      have hcompares : ((compare e e').then (compare m m')).Compares ((m : ℚ) * 2 ^ e)
          (m' * 2 ^ e') := Canonical.compares hu hv
      cases s <;> cases s'
      · -- below zero, the greater number is the one that is nearer to it
        refine ⟨_, rfl, ?_⟩
        rw [Ordering.compares_swap, signed_compares]
        exact hcompares
      · exact ⟨.lt, rfl, (neg_lt_zero.mpr hpos).trans hpos'⟩
      · exact ⟨.gt, rfl, (neg_lt_zero.mpr hpos').trans hpos⟩
      · exact ⟨_, rfl, hcompares⟩

theorem compare_infinity {u v : UnpackedFloat} {s : Sign} {y : ℚ}
    (hu : u = .infinity s) (hy : unpackedValue? v = some (.number y)) :
    u.compare v = some (s.rec .lt .gt) ∧ v.compare u = some (s.rec .gt .lt) := by
  subst hu
  rcases unpacked_of_number hy with ⟨s', rfl, -⟩ | ⟨s', m', e', hm', rfl, -⟩
  · cases s <;> exact ⟨rfl, rfl⟩
  · cases s <;> cases s' <;> exact ⟨rfl, rfl⟩

/-- An unpacked double with a value is infinite, or it stands for a number. -/
theorem unpacked_of_value {u : UnpackedFloat} {x : Value} (h : unpackedValue? u = some x) :
    (u = .infinity .negative ∧ x = ⊥) ∨ (u = .infinity .positive ∧ x = ((⊤ : WithTop ℚ) : Value)) ∨
      ∃ q, x = .number q := by
  cases u with
  | notANumber => cases h
  | infinity s =>
    cases s with
    | negative => exact .inl ⟨rfl, (Option.some_inj.mp h).symm⟩
    | positive => exact .inr (.inl ⟨rfl, (Option.some_inj.mp h).symm⟩)
  | zero s => exact .inr (.inr ⟨0, (Option.some_inj.mp h).symm⟩)
  | finite s m e hm => exact .inr (.inr ⟨_, (Option.some_inj.mp h).symm⟩)

/-- Unpacked doubles are compared as their values are. -/
theorem compare_unpacked {u v : UnpackedFloat} {x y : Value} (hu : UnpackedCanonical u)
    (hv : UnpackedCanonical v) (hx : unpackedValue? u = some x) (hy : unpackedValue? v = some y) :
    ∃ o, u.compare v = some o ∧ o.Compares x y := by
  rcases unpacked_of_value hx with ⟨hu', rfl⟩ | ⟨hu', rfl⟩ | ⟨q, rfl⟩ <;>
    rcases unpacked_of_value hy with ⟨hv', rfl⟩ | ⟨hv', rfl⟩ | ⟨q', rfl⟩
  · rw [hu', hv']
    exact ⟨.eq, rfl, rfl⟩
  · rw [hu', hv']
    exact ⟨.lt, rfl, bot_lt_top_value⟩
  · exact ⟨.lt, (compare_infinity hu' hy).1, bot_lt_number q'⟩
  · rw [hu', hv']
    exact ⟨.gt, rfl, bot_lt_top_value⟩
  · rw [hu', hv']
    exact ⟨.eq, rfl, rfl⟩
  · exact ⟨.gt, (compare_infinity hu' hy).1, number_lt_top q'⟩
  · exact ⟨.gt, (compare_infinity hv' hx).2, bot_lt_number q⟩
  · exact ⟨.lt, (compare_infinity hv' hx).2, number_lt_top q⟩
  · obtain ⟨o, ho, hcompares⟩ := compare_numbers hu hv hx hy
    exact ⟨o, ho, number_compares.mpr hcompares⟩

/-- What is no number is in no order. -/
theorem compare_eq_none {u v : UnpackedFloat}
    (h : unpackedValue? u = none ∨ unpackedValue? v = none) : u.compare v = none := by
  have nan_of_none : ∀ {w : UnpackedFloat}, unpackedValue? w = none → w = .notANumber := by
    intro w hw
    cases w with
    | notANumber => rfl
    | infinity s => cases s <;> cases hw
    | zero s => cases hw
    | finite s m e h => cases hw
  rcases h with h | h
  · rw [nan_of_none h]
    rfl
  · rw [nan_of_none h]
    cases u with
    | infinity s => cases s <;> rfl
    | _ => rfl

/-- The order of two doubles, if they have one, is that of their values. -/
theorem compare_value (a b : Float) :
    match value? a, value? b with
    | some x, some y => ∃ o, a.toModel.unpack.compare b.toModel.unpack = some o ∧ o.Compares x y
    | _, _ => a.toModel.unpack.compare b.toModel.unpack = none := by
  cases hx : value? a with
  | none => exact compare_eq_none (.inl hx)
  | some x =>
    cases hy : value? b with
    | none => exact compare_eq_none (.inr hy)
    | some y => exact compare_unpacked (unpackedCanonical _) (unpackedCanonical _) hx hy

/-- Doubles are in order when their values are, and without values they are in no order. -/
theorem le_iff {a b : Float} : a ≤ b ↔ ∃ x y, value? a = some x ∧ value? b = some y ∧ x ≤ y := by
  -- no order at all is no `≤` either
  have hcompare := compare_value a b
  have hle : a ≤ b ↔ (a.toModel.unpack.compare b.toModel.unpack).any (·.isLE) = true :=
    decide_eq_true_iff
  rw [hle]
  split at hcompare
  · rename_i x y hx hy
    obtain ⟨o, ho, hcompares⟩ := hcompare
    rw [ho, hx, hy, Option.any_some, ← Ordering.ne_gt_iff_isLE]
    exact hcompares.ne_gt.trans (by simp)
  · rename_i hnone
    rw [hcompare]
    constructor
    · intro h
      cases h
    · rintro ⟨x, y, hx, hy, -⟩
      exact absurd hy (hnone x y hx)

/-- The strict order of doubles is that of their values. -/
theorem lt_iff {a b : Float} : a < b ↔ ∃ x y, value? a = some x ∧ value? b = some y ∧ x < y := by
  have hcompare := compare_value a b
  have hlt : a < b ↔ (a.toModel.unpack.compare b.toModel.unpack == some .lt) = true :=
    decide_eq_true_iff
  rw [hlt, beq_iff_eq]
  split at hcompare
  · rename_i x y hx hy
    obtain ⟨o, ho, hcompares⟩ := hcompare
    rw [ho, hx, hy, Option.some_inj, hcompares.eq_lt]
    simp
  · rename_i hnone
    rw [hcompare]
    constructor
    · intro h
      cases h
    · rintro ⟨x, y, hx, hy, -⟩
      exact absurd hy (hnone x y hx)

/-- Doubles with one value are equal as numbers, zeros whatever their signs. -/
theorem beq_of_value {a b : Float} {v : Value} (ha : value? a = some v) (hb : value? b = some v) :
    (a == b) = true := by
  have hcompare := compare_value a b
  rw [ha, hb] at hcompare
  obtain ⟨o, ho, hcompares⟩ := hcompare
  have hequal : o = .eq := hcompares.eq_eq.mpr rfl
  have hbeq : (a == b) = (a.toModel.unpack.compare b.toModel.unpack == some .eq) := rfl
  rw [hbeq, ho, hequal]
  rfl

theorem doubles_le_trans {a b c : Float} (h : a ≤ b) (h' : b ≤ c) : a ≤ c := by
  obtain ⟨x, y, hx, hy, hxy⟩ := le_iff.mp h
  obtain ⟨y', z, hy', hz, hyz⟩ := le_iff.mp h'
  rw [hy, Option.some_inj] at hy'
  exact le_iff.mpr ⟨x, z, hx, hz, hxy.trans (hy' ▸ hyz)⟩

/-- Doubles with values are in order one way or the other. -/
theorem doubles_le_total {a b : Float} (ha : (value? a).isSome) (hb : (value? b).isSome) :
    a ≤ b ∨ b ≤ a := by
  obtain ⟨x, hx⟩ := Option.isSome_iff_exists.mp ha
  obtain ⟨y, hy⟩ := Option.isSome_iff_exists.mp hb
  rcases le_total x y with h | h
  · exact .inl (le_iff.mpr ⟨x, y, hx, hy, h⟩)
  · exact .inr (le_iff.mpr ⟨y, x, hy, hx, h⟩)

theorem isSome_value?_of_le {a b : Float} (h : a ≤ b) :
    (value? a).isSome = true ∧ (value? b).isSome = true := by
  obtain ⟨x, y, hx, hy, -⟩ := le_iff.mp h
  rw [hx, hy]
  exact ⟨rfl, rfl⟩

/-- What lies between two numbers is a number. -/
theorem number_of_between {a b c : Float} {x z : ℚ} (ha : value? a = some (.number x))
    (hc : value? c = some (.number z)) (hab : a ≤ b) (hbc : b ≤ c) :
    ∃ y, value? b = some (.number y) ∧ x ≤ y ∧ y ≤ z := by
  obtain ⟨x', w, hx', hw, hxw⟩ := le_iff.mp hab
  obtain ⟨w', z', hw', hz', hwz⟩ := le_iff.mp hbc
  rw [ha, Option.some_inj] at hx'
  rw [hc, Option.some_inj] at hz'
  rw [hw, Option.some_inj] at hw'
  subst hx' hz' hw'
  induction w using WithBot.recBotCoe with
  | bot => exact absurd hxw (bot_lt_number x).not_ge
  | coe w =>
    induction w using WithTop.recTopCoe with
    | top => exact absurd hwz (number_lt_top z).not_ge
    | coe y => exact ⟨y, hw, number_le.mp hxw, number_le.mp hwz⟩

/-- A double that stands for a number is finite. -/
theorem isFinite_of_number {a : Float} {x : ℚ} (h : value? a = some (.number x)) :
    a.isFinite = true := by
  have hfinite : a.isFinite = a.toModel.unpack.isFinite := rfl
  rcases unpacked_of_number h with ⟨s, hu, -⟩ | ⟨s, m, e, hm, hu, -⟩
  · rw [hfinite, hu]
    rfl
  · rw [hfinite, hu]
    rfl

/-- A finite double stands for a number. -/
theorem number_of_isFinite {a : Float} (h : a.isFinite = true) :
    ∃ x, value? a = some (.number x) := by
  have hfinite : a.toModel.unpack.isFinite = true := h
  rw [value?]
  generalize a.toModel.unpack = u at hfinite
  cases u with
  | notANumber => cases hfinite
  | infinity s => cases hfinite
  | zero s => exact ⟨0, rfl⟩
  | finite s m e hm => exact ⟨_, rfl⟩

/-! ## Storing a number -/

/-- The power of two from which on numbers are too large. -/
def overflow : ℚ := 2 ^ (1024 : ℤ)

theorem overflow_pos : 0 < overflow := two_zpow_pos 1024

/-- The value that a number has when it is stored: one that is too large becomes infinite. -/
def clamp (y : ℚ) : Value :=
  if overflow ≤ y then ((⊤ : WithTop ℚ) : Value) else if y ≤ -overflow then ⊥ else .number y

theorem clamp_of_lt {y : ℚ} (h : |y| < overflow) : clamp y = .number y := by
  obtain ⟨hlow, hhigh⟩ := abs_lt.mp h
  rw [clamp, if_neg (not_le.mpr hhigh), if_neg (not_le.mpr hlow)]

theorem clamp_mono {y y' : ℚ} (h : y ≤ y') : clamp y ≤ clamp y' := by
  by_cases htop : overflow ≤ y'
  · rw [clamp, clamp, if_pos htop]
    split
    · exact le_rfl
    · split
      · exact bot_le
      · exact (number_lt_top y).le
  · by_cases hbot : y ≤ -overflow
    · rw [clamp, if_neg (fun h0 => htop (h0.trans h)), if_pos hbot]
      exact bot_le
    · rw [clamp_of_lt, clamp_of_lt]
      · exact number_le.mpr h
      · exact abs_lt.mpr ⟨(not_le.mp hbot).trans_le h, not_le.mp htop⟩
      · exact abs_lt.mpr ⟨not_le.mp hbot, h.trans_lt (not_le.mp htop)⟩

/-- The unpacked double is a canonical form of the number. -/
def Results (u : UnpackedFloat) (y : ℚ) : Prop :=
  UnpackedCanonical u ∧
    match u with
    | .finite s m e _ => y = signed s (m * 2 ^ e)
    | .zero _ => y = 0
    | _ => False

theorem clamp_neg_of_large {y : ℚ} (h : overflow ≤ y) : clamp (-y) = ⊥ := by
  have hpos := overflow_pos
  rw [clamp, if_neg (by linarith), if_pos (by linarith)]

theorem abs_signed (s : Sign) {x : ℚ} (h : 0 ≤ x) : |signed s x| = x := by
  cases s with
  | negative => exact (abs_neg x).trans (abs_of_nonneg h)
  | positive => exact abs_of_nonneg h

theorem Canonical.lt_overflow (h : Canonical m e) (he : e ≤ 971) : (m : ℚ) * 2 ^ e < overflow := by
  have hm : (m : ℚ) < 2 ^ (53 : ℤ) := by exact_mod_cast h.bits
  calc (m : ℚ) * 2 ^ e < 2 ^ (53 : ℤ) * 2 ^ e := mul_lt_mul_of_pos_right hm (two_zpow_pos e)
    _ ≤ 2 ^ (53 : ℤ) * 2 ^ (971 : ℤ) := by
        gcongr
        norm_num
    _ = overflow := by
        rw [← two_zpow_add]
        rfl

theorem Canonical.overflow_le (h : Canonical m e) (he : 971 < e) : overflow ≤ (m : ℚ) * 2 ^ e := by
  have hm : (2 : ℚ) ^ (52 : ℤ) ≤ m := by exact_mod_cast h.tight.resolve_left (by omega)
  calc overflow = 2 ^ (52 : ℤ) * 2 ^ (972 : ℤ) := by
        rw [← two_zpow_add]
        rfl
    _ ≤ m * 2 ^ e := by
        gcongr
        · norm_num
        · omega

/-- A number that is stored keeps its value, unless it becomes infinite. -/
theorem value?_pack {u : UnpackedFloat} {y : ℚ} (h : Results u y) :
    unpackedValue? (Float.Model.pack u).unpack = some (clamp y) := by
  obtain ⟨hcanonical, hy⟩ := h
  cases u with
  | infinity s => exact hy.elim
  | notANumber => exact hy.elim
  | zero s =>
    subst hy
    rw [unpack_pack_zero, clamp_of_lt (by rw [abs_zero]; exact overflow_pos)]
    rfl
  | finite s m e h =>
    subst hy
    have hcanonical : Canonical m e := hcanonical
    rcases lt_or_ge 971 e with he | he
    · have hlarge := hcanonical.overflow_le he
      rw [unpack_pack_large h he]
      cases s with
      | negative =>
        rw [signed, clamp_neg_of_large hlarge]
        rfl
      | positive =>
        rw [signed, clamp, if_pos hlarge]
        rfl
    · rw [unpack_pack h hcanonical he, clamp_of_lt]
      · rfl
      · rw [abs_signed s (finite_pos h e).le]
        exact hcanonical.lt_overflow he

end VehiclePrivacy.Binary64
