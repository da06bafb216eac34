import VehiclePrivacy.Decimal.Shortest
import VehiclePrivacy.Proofs.Binary64.Value

/-!
# The shortest digits

What the search for the fewest digits finds. It always ends with a hit (`Proper.shortest_hit`), so
the decimal lies in the interval of numbers that round to the double, and is rounded to it
(`Contains.rounds`). The next coarser grid has no hit, so it is at least as wide as the interval,
and seventeen digits suffice (`Hit.digits_lt`).
-/

namespace VehiclePrivacy.Decimal

open Binary64

/-- The number that a decimal writes. -/
def Digits.number (d : Digits) : ℚ := d.digits * 10 ^ d.exponent

theorem ten_zpow_pos (p : ℤ) : (0 : ℚ) < 10 ^ p := zpow_pos (by norm_num) p

theorem ten_zpow_le {a b : ℤ} : (10 : ℚ) ^ a ≤ 10 ^ b ↔ a ≤ b :=
  zpow_le_zpow_iff_right₀ (by norm_num)

namespace Interval

variable {i : Interval} {tie : Tie} {p q : ℤ} {d k : ℕ} {x : ℚ}

/-! ## Membership -/

/-- The lower end. -/
def lowEnd (i : Interval) : ℚ := i.low * 2 ^ i.scale

/-- The upper end. -/
def highEnd (i : Interval) : ℚ := i.high * 2 ^ i.scale

/-- The number itself. -/
def middle (i : Interval) : ℚ := i.value * 2 ^ i.scale

/-- The numbers of the interval. -/
structure Contains (i : Interval) (x : ℚ) : Prop where
  low : i.lowEnd ≤ x
  high : x ≤ i.highEnd
  proper : i.closed = false → i.lowEnd < x ∧ x < i.highEnd

theorem zpow_toNat {a : ℚ} (ha : a ≠ 0) (k : ℤ) : a ^ k.toNat = a ^ k * a ^ (-k).toNat := by
  rw [← zpow_natCast, ← zpow_natCast, ← zpow_add₀ ha]
  congr 1
  omega

/-- The unit and the grid of the integer comparison, up to a common factor. -/
theorem ratio_factor (i : Interval) (p : ℤ) : ∃ c : ℚ, 0 < c ∧
    ((i.ratio p).1 : ℚ) = 2 ^ i.scale * c ∧ ((i.ratio p).2 : ℚ) = 10 ^ p * c := by
  have htwo := zpow_toNat (a := 2) two_ne_zero i.scale
  have hten := zpow_toNat (a := 10) (by norm_num) p
  refine ⟨2 ^ (-i.scale).toNat * 10 ^ (-p).toNat, by positivity, ?_, ?_⟩
  · show ((2 ^ i.scale.toNat * 10 ^ (-p).toNat : ℕ) : ℚ) = _
    push_cast
    rw [htwo]
    ring
  · show ((2 ^ (-i.scale).toNat * 10 ^ p.toNat : ℕ) : ℚ) = _
    push_cast
    rw [hten]
    ring

theorem unit_le_grid (i : Interval) (p : ℤ) (a b : ℕ) :
    a * (i.ratio p).1 ≤ b * (i.ratio p).2 ↔ (a : ℚ) * 2 ^ i.scale ≤ b * 10 ^ p := by
  obtain ⟨c, hc, hunit, hgrid⟩ := i.ratio_factor p
  rw [← @Nat.cast_le ℚ]
  push_cast
  rw [hunit, hgrid, ← mul_assoc, ← mul_assoc]
  exact mul_le_mul_iff_of_pos_right hc

theorem grid_le_unit (i : Interval) (p : ℤ) (a b : ℕ) :
    b * (i.ratio p).2 ≤ a * (i.ratio p).1 ↔ (b : ℚ) * 10 ^ p ≤ a * 2 ^ i.scale := by
  obtain ⟨c, hc, hunit, hgrid⟩ := i.ratio_factor p
  rw [← @Nat.cast_le ℚ]
  push_cast
  rw [hunit, hgrid, ← mul_assoc, ← mul_assoc]
  exact mul_le_mul_iff_of_pos_right hc

/-- The test with integers says whether the point of the grid is in the interval. -/
theorem meets_iff : i.meets p d = true ↔ i.Contains (d * 10 ^ p) := by
  have hlow := i.unit_le_grid p i.low d
  have hlow' := i.grid_le_unit p i.low d
  have hhigh := i.grid_le_unit p i.high d
  have hhigh' := i.unit_le_grid p i.high d
  rw [meets]
  dsimp only
  split
  · rename_i hclosed
    rw [Bool.and_eq_true, decide_eq_true_iff, decide_eq_true_iff, hlow, hhigh]
    constructor
    · exact fun ⟨h, h'⟩ => ⟨h, h', fun hopen => by rw [hclosed] at hopen; cases hopen⟩
    · exact fun h => ⟨h.low, h.high⟩
  · rename_i hopen
    rw [Bool.and_eq_true, decide_eq_true_iff, decide_eq_true_iff, ← not_le, ← not_le, hlow', hhigh',
      not_le, not_le]
    constructor
    · exact fun h => ⟨h.1.le, h.2.le, fun _ => h⟩
    · exact fun h => h.proper (Bool.not_eq_true _ ▸ hopen)

/-! ## The neighbours of a number on a grid -/

/-- The last point of the grid that is not above the number. -/
def floor (i : Interval) (p : ℤ) : ℕ := i.value * (i.ratio p).1 / (i.ratio p).2

theorem floor_le (i : Interval) (p : ℤ) : (i.floor p : ℚ) * 10 ^ p ≤ i.middle :=
  (i.grid_le_unit p i.value (i.floor p)).mp (Nat.div_mul_le_self _ _)

theorem lt_floor_add_one (i : Interval) (p : ℤ) :
    i.middle < ((i.floor p + 1 : ℕ) : ℚ) * 10 ^ p := by
  have hgrid : 0 < (i.ratio p).2 :=
    Nat.mul_pos (Nat.pow_pos (by decide)) (Nat.pow_pos (by decide))
  refine lt_of_not_ge fun h => ?_
  have := (i.grid_le_unit p i.value _).mpr h
  exact absurd this (not_le.mpr (Nat.lt_mul_of_div_lt (Nat.lt_succ_self _) hgrid))

/-- What is found on a grid is in the interval, and one of the two neighbours. -/
theorem of_nearest? (h : i.nearest? tie p = some d) :
    i.meets p d = true ∧ (d = i.floor p ∨ d = i.floor p + 1) := by
  simp only [nearest?] at h
  split at h
  · rename_i hboth
    obtain ⟨hbelow, habove⟩ := Bool.and_eq_true _ _ ▸ hboth
    have hd : d = i.floor p ∨ d = i.floor p + 1 := by
      split at h
      · exact .inl (Option.some.inj h).symm
      · exact .inr (Option.some.inj h).symm
      · split at h
        · split at h
          · exact .inl (Option.some.inj h).symm
          · exact .inr (Option.some.inj h).symm
        · exact .inr (Option.some.inj h).symm
    refine ⟨?_, hd⟩
    rcases hd with rfl | rfl
    · exact hbelow
    · exact habove
  · split at h
    · rename_i hbelow
      obtain rfl := Option.some.inj h
      exact ⟨hbelow, .inl rfl⟩
    · split at h
      · rename_i habove
        obtain rfl := Option.some.inj h
        exact ⟨habove, .inr rfl⟩
      · cases h

/-- Where nothing is found, neither neighbour is in the interval. -/
theorem of_nearest?_none (h : i.nearest? tie p = none) :
    i.meets p (i.floor p) = false ∧ i.meets p (i.floor p + 1) = false := by
  simp only [nearest?] at h
  split at h
  · split at h
    · cases h
    · cases h
    · split at h <;> cases h
  · split at h
    · cases h
    · rename_i hbelow
      split at h
      · cases h
      · rename_i habove
        exact ⟨Bool.not_eq_true _ ▸ hbelow, Bool.not_eq_true _ ▸ habove⟩

/-! ## The search -/

theorem of_search {steps : ℕ} {found : Digits} (h : i.search tie steps p = some found) :
    i.nearest? tie found.exponent = some found.digits ∧
      (found.exponent = p ∨ i.nearest? tie (found.exponent + 1) = none) := by
  induction steps generalizing p with
  | zero => cases h
  | succ steps ih =>
    rw [search] at h
    split at h
    · rename_i d hd
      obtain rfl := Option.some.inj h
      exact ⟨hd, .inl rfl⟩
    · rename_i hnone
      obtain ⟨hfound, hcoarser⟩ := ih h
      refine ⟨hfound, .inr ?_⟩
      rcases hcoarser with heq | hcoarser
      · rwa [heq, sub_add_cancel]
      · exact hcoarser

theorem search_isSome (steps : ℕ) (hq : (i.nearest? tie q).isSome = true) (hle : q ≤ p)
    (hlt : p < q + steps) : (i.search tie steps p).isSome = true := by
  induction steps generalizing p with
  | zero => omega
  | succ steps ih =>
    rw [search]
    split
    · rfl
    · rename_i hnone
      have hne : q ≠ p := by
        rintro rfl
        rw [hnone] at hq
        cases hq
      exact ih (by omega) (by push_cast at hlt; omega)

/-- An interval around a number, off zero. -/
structure Proper (i : Interval) : Prop where
  pos : 0 < i.low
  below : i.low < i.value
  above : i.value < i.high

theorem Proper.contains_middle (h : i.Proper) : i.Contains i.middle := by
  have hpos := two_zpow_pos i.scale
  have hbelow : i.lowEnd < i.middle :=
    mul_lt_mul_of_pos_right (by exact_mod_cast h.below) hpos
  have habove : i.middle < i.highEnd :=
    mul_lt_mul_of_pos_right (by exact_mod_cast h.above) hpos
  exact ⟨hbelow.le, habove.le, fun _ => ⟨hbelow, habove⟩⟩

theorem Proper.lowEnd_pos (h : i.Proper) : 0 < i.lowEnd :=
  mul_pos (by exact_mod_cast h.pos) (two_zpow_pos _)

/-- Zero is not in the interval. -/
theorem Contains.digits_pos {d : Digits} (h : i.Contains d.number) (hi : i.Proper) :
    0 < d.digits := by
  refine Nat.pos_of_ne_zero fun hzero => ?_
  have hlow := h.low
  rw [Digits.number, hzero, Nat.cast_zero, zero_mul] at hlow
  exact absurd hi.lowEnd_pos hlow.not_gt

/-- The number itself is on the finest grid. -/
theorem exists_middle (i : Interval) : ∃ n : ℕ, i.middle = n * 10 ^ min i.scale 0 := by
  rcases le_total 0 i.scale with hscale | hscale
  · refine ⟨i.value * 2 ^ i.scale.toNat, ?_⟩
    rw [min_eq_right hscale, zpow_zero, mul_one, middle]
    conv_lhs => rw [← Int.toNat_of_nonneg hscale]
    rw [zpow_natCast]
    push_cast
    rfl
  · refine ⟨i.value * 5 ^ (-i.scale).toNat, ?_⟩
    have hfive : (5 : ℚ) ^ (-i.scale).toNat * 10 ^ i.scale = 2 ^ i.scale := by
      rw [← zpow_natCast, Int.toNat_of_nonneg (by omega), zpow_neg,
        show (10 : ℚ) = 5 * 2 by norm_num, mul_zpow, ← mul_assoc,
        inv_mul_cancel₀ (zpow_pos (by norm_num) _).ne', one_mul]
    rw [min_eq_left hscale, middle]
    push_cast
    rw [mul_assoc, hfive]

theorem Proper.nearest?_finest (h : i.Proper) (tie : Tie) :
    (i.nearest? tie (min i.scale 0)).isSome = true := by
  obtain ⟨n, hn⟩ := i.exists_middle
  have hten := ten_zpow_pos (min i.scale 0)
  have hfloor : i.floor (min i.scale 0) = n := by
    have hle := i.floor_le (min i.scale 0)
    have hlt := i.lt_floor_add_one (min i.scale 0)
    rw [hn] at hle hlt
    have hle' := le_of_mul_le_mul_right hle hten
    have hlt' := lt_of_mul_lt_mul_right hlt hten.le
    norm_cast at hle' hlt'
    omega
  rw [Option.isSome_iff_ne_none]
  intro hnone
  have hmiss := (of_nearest?_none hnone).1
  have hhit := meets_iff.mpr (hn ▸ h.contains_middle)
  rw [hfloor, hhit] at hmiss
  cases hmiss

/-- The search starts above the finest grid. -/
theorem finest_le_coarsest (i : Interval) : min i.scale 0 ≤ i.coarsest := by
  rw [coarsest]
  split
  · omega
  · rename_i e he
    have : i.scale + (i.high.log2 + 1 : ℕ) = -((e : ℤ) + 1) := by rw [he, Int.negSucc_eq]
    omega

/-- All of the interval lies below the first point of the coarsest grid. -/
theorem highEnd_lt_coarsest (i : Interval) : i.highEnd < 10 ^ i.coarsest := by
  have hhigh : i.highEnd < 2 ^ (i.scale + (i.high.log2 + 1 : ℕ)) := by
    rw [highEnd, add_comm, two_zpow_add, zpow_natCast]
    exact mul_lt_mul_of_pos_right (by exact_mod_cast Nat.lt_log2_self) (two_zpow_pos _)
  refine hhigh.trans_le ?_
  rw [coarsest]
  split
  · rename_i e he
    rw [he, Int.ofNat_eq_natCast, zpow_natCast]
    have hpow : 2 ^ e ≤ 10 ^ (e / 3 + 1) :=
      calc 2 ^ e ≤ 2 ^ (3 * (e / 3 + 1)) := Nat.pow_le_pow_right two_pos (by omega)
        _ = 8 ^ (e / 3 + 1) := pow_mul 2 3 _
        _ ≤ 10 ^ (e / 3 + 1) := Nat.pow_le_pow_left (by decide) _
    exact_mod_cast hpow
  · rename_i e he
    have hpow : 10 ^ ((e + 1) * 3 / 10) ≤ 2 ^ (e + 1) := by
      rw [← Nat.pow_le_pow_iff_left (show 10 ≠ 0 by decide)]
      calc (10 ^ ((e + 1) * 3 / 10)) ^ 10 = 10 ^ ((e + 1) * 3 / 10 * 10) := (pow_mul 10 _ _).symm
        _ ≤ 10 ^ (3 * (e + 1)) := Nat.pow_le_pow_right (by decide) (by omega)
        _ = 1000 ^ (e + 1) := pow_mul 10 3 _
        _ ≤ 1024 ^ (e + 1) := Nat.pow_le_pow_left (by decide) _
        _ = (2 ^ 10) ^ (e + 1) := by norm_num
        _ = (2 ^ (e + 1)) ^ 10 := pow_right_comm 2 10 _
    rw [he, zpow_negSucc]
    calc ((2 : ℚ) ^ (e + 1))⁻¹ ≤ (10 ^ ((e + 1) * 3 / 10))⁻¹ :=
          inv_anti₀ (by positivity) (by exact_mod_cast hpow)
      _ = 10 ^ (-((e + 1) * 3 / 10 : ℕ) : ℤ) := by rw [zpow_neg, zpow_natCast]
      _ ≤ 10 ^ (1 - ((e + 1) * 3 / 10 : ℕ) : ℤ) := ten_zpow_le.mpr (by omega)

/-- Where a grid has no hit, it is at least as wide as the interval. -/
theorem Proper.width_le (h : i.Proper) (hnone : i.nearest? tie p = none) :
    i.highEnd - i.lowEnd ≤ 10 ^ p := by
  obtain ⟨hbelow, habove⟩ := of_nearest?_none hnone
  have hmiddle := h.contains_middle
  have hfloor := i.floor_le p
  have hnext := i.lt_floor_add_one p
  have hlow : (i.floor p : ℚ) * 10 ^ p ≤ i.lowEnd := by
    by_contra hlt
    refine Bool.eq_false_iff.mp hbelow (meets_iff.mpr ⟨(not_le.mp hlt).le, ?_, fun hopen => ?_⟩)
    · exact hfloor.trans hmiddle.high
    · exact ⟨not_le.mp hlt, hfloor.trans_lt (hmiddle.proper hopen).2⟩
  have hhigh : i.highEnd ≤ ((i.floor p + 1 : ℕ) : ℚ) * 10 ^ p := by
    by_contra hlt
    refine Bool.eq_false_iff.mp habove (meets_iff.mpr ⟨?_, (not_le.mp hlt).le, fun hopen => ?_⟩)
    · exact hmiddle.low.trans hnext.le
    · exact ⟨(hmiddle.proper hopen).1.trans hnext, not_le.mp hlt⟩
  push_cast at hhigh
  linarith

/-- What the search ends with: a decimal in the interval, and nothing on the next coarser grid. -/
structure Hit (i : Interval) (d : Digits) : Prop where
  contains : i.Contains d.number
  width : i.highEnd - i.lowEnd ≤ 10 ^ (d.exponent + 1)

/-- **The search ends with a hit.** -/
theorem Proper.shortest_hit (h : i.Proper) (tie : Tie) : i.Hit (i.shortest tie) := by
  have hle := i.finest_le_coarsest
  obtain ⟨found, hfound⟩ := Option.isSome_iff_exists.mp
    (search_isSome ((i.coarsest - min i.scale 0).toNat + 1) (h.nearest?_finest tie) hle
      (by push_cast; omega))
  obtain ⟨hnearest, hcoarser⟩ := of_search hfound
  have hcontains := meets_iff.mp (of_nearest? hnearest).1
  have hshortest : i.shortest tie = found := by
    rw [shortest, hfound, Option.getD_some]
  rw [hshortest]
  refine ⟨hcontains, ?_⟩
  rcases hcoarser with heq | hcoarser
  · -- the coarsest grid has no hit, since its first point is above the interval
    have hone : (1 : ℚ) ≤ found.digits := by exact_mod_cast Contains.digits_pos hcontains h
    have hten : (10 : ℚ) ^ i.coarsest ≤ found.digits * 10 ^ i.coarsest :=
      le_mul_of_one_le_left (ten_zpow_pos _).le hone
    rw [heq] at hcontains
    exact absurd i.highEnd_lt_coarsest (hten.trans hcontains.high).not_gt
  · exact h.width_le hcoarser

/-! ## The interval of a double -/

variable {b : Binary}

theorem quarter (a : ℚ) (e : ℤ) : a * 2 ^ (e - 2) = a / 4 * 2 ^ e := by
  rw [zpow_sub₀ two_ne_zero]
  norm_num
  ring

theorem highEnd_ofBinary (b : Binary) :
    (ofBinary b).highEnd = (b.significand + 1 / 2) * 2 ^ b.exponent := by
  show ((4 * b.significand + 2 : ℕ) : ℚ) * 2 ^ (b.exponent - 2) = _
  rw [quarter]
  push_cast
  ring

/-- The lower end is half a step away, or a quarter below a power of two. -/
theorem lowEnd_ofBinary (hm : 0 < b.significand) :
    (¬ (b.significand = 2 ^ 52 ∧ b.exponent ≠ -1074) ∧
      (ofBinary b).lowEnd = (b.significand - 1 / 2) * 2 ^ b.exponent) ∨
    ((b.significand = 2 ^ 52 ∧ b.exponent ≠ -1074) ∧
      (ofBinary b).lowEnd = (b.significand - 1 / 4) * 2 ^ b.exponent) := by
  have hlow : (ofBinary b).low = if b.significand = Nat.pow 2 52 && b.exponent != -1074
      then 4 * b.significand - 1 else 4 * b.significand - 2 := rfl
  have hcondition : (b.significand = Nat.pow 2 52 && b.exponent != -1074) = true ↔
      b.significand = 2 ^ 52 ∧ b.exponent ≠ -1074 := by
    rw [Bool.and_eq_true, decide_eq_true_iff, bne_iff_ne]
    rfl
  rw [lowEnd, hlow, show (ofBinary b).scale = b.exponent - 2 from rfl, quarter]
  split
  · rename_i h
    refine .inr ⟨hcondition.mp h, ?_⟩
    rw [Nat.cast_sub (by omega)]
    push_cast
    ring
  · rename_i h
    refine .inl ⟨fun hpower => h (hcondition.mpr hpower), ?_⟩
    rw [Nat.cast_sub (by omega)]
    push_cast
    ring

theorem proper_ofBinary (hm : 0 < b.significand) : (ofBinary b).Proper := by
  have hlow : (ofBinary b).low = 4 * b.significand - 1 ∨
      (ofBinary b).low = 4 * b.significand - 2 := ite_eq_or_eq _ _ _
  refine ⟨by omega, ?_, ?_⟩
  · show _ < 4 * b.significand
    omega
  · show 4 * b.significand < 4 * b.significand + 2
    omega

/-- The ends belong to the interval only if the significand is even. -/
theorem Contains.even (h : (ofBinary b).Contains x)
    (hend : x = (ofBinary b).lowEnd ∨ x = (ofBinary b).highEnd) : Even (b.significand : ℤ) := by
  have hclosed : (ofBinary b).closed = (b.significand % 2 == 0) := rfl
  cases hbit : (ofBinary b).closed with
  | true =>
    rw [hclosed, beq_iff_eq] at hbit
    exact ⟨(b.significand / 2 : ℕ), by omega⟩
  | false =>
    obtain ⟨hlow, hhigh⟩ := h.proper hbit
    rcases hend with rfl | rfl
    · exact absurd hlow (lt_irrefl _)
    · exact absurd hhigh (lt_irrefl _)

/-- On the grid of the significand, the significand is nearest. -/
theorem Contains.nearest (h : (ofBinary b).Contains x) (hm : 0 < b.significand) :
    Nearest (x / 2 ^ b.exponent) b.significand := by
  have hpos := two_zpow_pos b.exponent
  have hhigh := h.high
  have hlow : (b.significand - 1 / 2) * 2 ^ b.exponent ≤ x := by
    rcases lowEnd_ofBinary hm with ⟨-, hend⟩ | ⟨-, hend⟩
    · exact hend ▸ h.low
    · refine le_trans ?_ (hend ▸ h.low)
      gcongr
      norm_num
  rw [highEnd_ofBinary, ← div_le_iff₀ hpos] at hhigh
  rw [← le_div_iff₀ hpos] at hlow
  refine ⟨?_, fun htie => ?_⟩
  · rw [Int.cast_natCast, abs_le]
    exact ⟨by linarith, by linarith⟩
  · rw [Int.cast_natCast] at htie
    rcases eq_or_eq_neg_of_abs_eq htie with hup | hdown
    · refine h.even (.inr ?_)
      rw [highEnd_ofBinary, ← div_eq_iff hpos.ne']
      linarith
    · rcases lowEnd_ofBinary hm with ⟨-, hend⟩ | ⟨hpower, -⟩
      · refine h.even (.inl ?_)
        rw [hend, ← div_eq_iff hpos.ne']
        linarith
      · exact ⟨2 ^ 51, by rw [hpower.1]; norm_num⟩

/-- Only below a power of two does the interval reach to the next finer grid. -/
theorem Contains.power_of_two (h : (ofBinary b).Contains x) (hm : 0 < b.significand)
    (hb : Canonical b.significand b.exponent) (hleast : b.exponent ≠ -1074)
    (hbelow : x < 2 ^ 52 * 2 ^ b.exponent) :
    b.significand = 2 ^ 52 ∧ (2 ^ 52 - 1 / 4) * 2 ^ b.exponent ≤ x := by
  have hbits := hb.tight.resolve_left hleast
  rcases lowEnd_ofBinary hm with ⟨hnot, hend⟩ | ⟨⟨hpower, -⟩, hend⟩
  · have hlow := hend ▸ h.low
    have hlt := lt_of_mul_lt_mul_right (hlow.trans_lt hbelow) (two_zpow_pos b.exponent).le
    have hlt' : (b.significand : ℚ) < 2 ^ 52 + 1 := by linarith
    have hlt'' : b.significand < 2 ^ 52 + 1 := by exact_mod_cast hlt'
    exact absurd ⟨by omega, hleast⟩ hnot
  · have hlow := hend ▸ h.low
    rw [hpower] at hlow
    push_cast at hlow
    exact ⟨hpower, hlow⟩

theorem rounds_below_power {e : ℤ} (he : -1074 < e) (hlow : (2 ^ 52 - 1 / 4) * 2 ^ e ≤ x)
    (hbelow : x < 2 ^ 52 * 2 ^ e) : Rounds x (2 ^ 52 * 2 ^ e) := by
  have hpos := two_zpow_pos e
  have hx : |x| = x := abs_of_nonneg (le_trans (by positivity) hlow)
  have hhalf : (2 : ℚ) ^ (e - 1) = 2 ^ e / 2 := zpow_sub_one₀ two_ne_zero _
  refine ⟨e - 1, 2 ^ 53, ⟨by omega, ?_, .inr ?_⟩, ⟨?_, fun _ => ⟨2 ^ 52, by norm_num⟩⟩, ?_⟩
  · rw [hx, show e - 1 + 53 = 52 + e by ring, two_zpow_add]
    exact_mod_cast hbelow
  · rw [hx, show e - 1 + 52 = 51 + e by ring, two_zpow_add]
    refine le_trans ?_ hlow
    gcongr
    norm_num
  · rw [hhalf, div_div_eq_mul_div, abs_le]
    push_cast
    constructor
    · rw [neg_le_sub_iff_le_add, ← sub_le_iff_le_add, le_div_iff₀ hpos]
      linarith
    · rw [sub_le_iff_le_add, div_le_iff₀ hpos]
      linarith
  · rw [hhalf]
    push_cast
    ring

/-- **What the interval contains is rounded to the double.** -/
theorem Contains.rounds (h : (ofBinary b).Contains x) (hm : 0 < b.significand)
    (hb : Canonical b.significand b.exponent) :
    Rounds x (b.significand * 2 ^ b.exponent) := by
  have hx : |x| = x := abs_of_pos ((proper_ofBinary hm).lowEnd_pos.trans_le h.low)
  by_cases hgrid : b.exponent = -1074 ∨ 2 ^ (b.exponent + 52) ≤ x
  · have hbits : (b.significand : ℚ) + 1 ≤ 2 ^ (53 : ℤ) := by exact_mod_cast hb.bits
    have hhigh := h.high
    rw [highEnd_ofBinary] at hhigh
    refine ⟨b.exponent, b.significand, ⟨hb.least, ?_, ?_⟩, h.nearest hm, ?_⟩
    · rw [hx, add_comm, two_zpow_add]
      exact hhigh.trans_lt (mul_lt_mul_of_pos_right (by linarith) (two_zpow_pos _))
    · rw [hx]
      exact hgrid
    · rw [Int.cast_natCast]
  · obtain ⟨hleast, hbelow⟩ := not_or.mp hgrid
    rw [not_le, add_comm, two_zpow_add] at hbelow
    have hbelow : x < 2 ^ 52 * 2 ^ b.exponent := by exact_mod_cast hbelow
    obtain ⟨hpower, hlow⟩ := h.power_of_two hm hb hleast hbelow
    rw [hpower]
    push_cast
    exact rounds_below_power (lt_of_le_of_ne hb.least (Ne.symm hleast)) hlow hbelow

/-! ## The shortest digits of a double -/

theorem Hit.digits_pos {d : Digits} (h : (ofBinary b).Hit d) (hm : 0 < b.significand) :
    0 < d.digits :=
  h.contains.digits_pos (proper_ofBinary hm)

/-- **Seventeen digits suffice.** -/
theorem Hit.digits_lt {d : Digits} (h : (ofBinary b).Hit d) (hm : 0 < b.significand)
    (hb : b.significand < 2 ^ 53) : d.digits < 10 ^ 17 := by
  have hpos := two_zpow_pos b.exponent
  have hten := ten_zpow_pos d.exponent
  have hbits : (b.significand : ℚ) + 1 ≤ 2 ^ 53 := by exact_mod_cast hb
  have hhigh := h.contains.high
  have hwidth := h.width
  rw [Digits.number, highEnd_ofBinary] at hhigh
  rw [zpow_add_one₀ (by norm_num), highEnd_ofBinary] at hwidth
  -- the interval is a step wide, or three quarters of a step
  have hstep : 2 ^ b.exponent * (b.significand + 1 / 2) < (10 : ℚ) ^ d.exponent * 10 ^ 17 := by
    rcases lowEnd_ofBinary hm with ⟨-, hend⟩ | ⟨⟨hpower, -⟩, hend⟩
    · rw [hend] at hwidth
      nlinarith
    · rw [hend] at hwidth
      rw [hpower]
      push_cast
      nlinarith
  have hlt : (d.digits : ℚ) * 10 ^ d.exponent < 10 ^ 17 * 10 ^ d.exponent := by linarith
  exact_mod_cast lt_of_mul_lt_mul_right hlt hten.le

theorem Hit.le_exponent {d : Digits} (h : (ofBinary b).Hit d) (hm : 0 < b.significand)
    (hb : Canonical b.significand b.exponent) : -340 ≤ d.exponent := by
  have hone : (1 : ℚ) ≤ b.significand := by exact_mod_cast hm
  have hdigits : (d.digits : ℚ) ≤ 10 ^ (17 : ℤ) := by exact_mod_cast (h.digits_lt hm hb.bits).le
  have hlow : (1 : ℚ) / 2 * 2 ^ b.exponent ≤ (ofBinary b).lowEnd := by
    rcases lowEnd_ofBinary hm with ⟨-, hend⟩ | ⟨-, hend⟩ <;> rw [hend] <;> gcongr <;> linarith
  have hlt : (10 : ℚ) ^ (-324 : ℤ) < 10 ^ (17 + d.exponent) := by
    have hnat : 2 * 2 ^ 1074 < 10 ^ 324 := by decide +kernel
    calc (10 : ℚ) ^ (-324 : ℤ) = (10 ^ 324)⁻¹ := by rw [zpow_neg, zpow_ofNat]
      _ < (2 * 2 ^ 1074)⁻¹ := inv_strictAnti₀ (by positivity) (by exact_mod_cast hnat)
      _ = 1 / 2 * 2 ^ (-1074 : ℤ) := by rw [zpow_neg, zpow_ofNat, mul_inv, one_div]
      _ ≤ 1 / 2 * 2 ^ b.exponent :=
          mul_le_mul_of_nonneg_left (two_zpow_le.mpr hb.least) (by norm_num)
      _ ≤ d.digits * 10 ^ d.exponent := hlow.trans h.contains.low
      _ ≤ 10 ^ (17 : ℤ) * 10 ^ d.exponent :=
          mul_le_mul_of_nonneg_right hdigits (ten_zpow_pos _).le
      _ = 10 ^ (17 + d.exponent) := (zpow_add₀ (by norm_num) _ _).symm
  have := (zpow_lt_zpow_iff_right₀ (by norm_num : (1 : ℚ) < 10)).mp hlt
  omega

theorem Hit.exponent_le {d : Digits} (h : (ofBinary b).Hit d) (hm : 0 < b.significand)
    (hb : b.significand < 2 ^ 53) (he : b.exponent ≤ 971) : d.exponent ≤ 308 := by
  have hbits : (b.significand : ℚ) + 1 ≤ 2 ^ 53 := by exact_mod_cast hb
  have hone : (1 : ℚ) ≤ d.digits := by exact_mod_cast h.digits_pos hm
  have hhigh := h.contains.high
  rw [Digits.number, highEnd_ofBinary] at hhigh
  have hlt : (10 : ℚ) ^ d.exponent < 10 ^ (309 : ℤ) := by
    calc (10 : ℚ) ^ d.exponent ≤ d.digits * 10 ^ d.exponent :=
          le_mul_of_one_le_left (ten_zpow_pos _).le hone
      _ ≤ (b.significand + 1 / 2) * 2 ^ b.exponent := hhigh
      _ ≤ 2 ^ 53 * 2 ^ (971 : ℤ) := by
          gcongr
          · linarith
          · norm_num
      _ < 10 ^ (309 : ℤ) := by
          have hnat : 2 ^ 53 * 2 ^ 971 < 10 ^ 309 := by decide +kernel
          exact_mod_cast hnat
  have := (zpow_lt_zpow_iff_right₀ (by norm_num : (1 : ℚ) < 10)).mp hlt
  omega

end Interval

/-- **The digits of a double** other than zero are a hit of its interval. -/
theorem Binary.shortest_hit {b : Binary} (hm : 0 < b.significand) (tie : Tie) :
    (Interval.ofBinary b).Hit (b.shortest tie) :=
  (Interval.proper_ofBinary hm).shortest_hit tie

end VehiclePrivacy.Decimal
