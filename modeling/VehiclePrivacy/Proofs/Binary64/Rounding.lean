import Mathlib.Algebra.Order.Field.Power
import Mathlib.Algebra.Order.Field.Rat
import Mathlib.Algebra.Order.Ring.Abs
import Mathlib.Algebra.Ring.Int.Parity
import Mathlib.Tactic.FieldSimp
import Mathlib.Tactic.Linarith
import Mathlib.Tactic.Positivity
import Mathlib.Tactic.Ring

/-!
# Rounding to double precision

What it means that a rational number is rounded to a double, apart from how doubles are stored and
from how any operation comes to its result. A number is rounded on the grid of the multiples of a
power of two, which is chosen such that 53 bits suffice and is never finer than `2 ^ (-1074)`; on
the grid the nearest point is taken, and of two the even one.

Rounding is said as a relation, since only three things are asked of it later: it is monotone
(`Rounds.mono`), so it has at most one result; it is odd (`Rounds.neg`); and it keeps what is on the
grid already (`rounds_grid`).
-/

namespace VehiclePrivacy.Binary64

/-! ## The nearest integer -/

/-- No integer is nearer to `q` than `n`, and if another one is as near, then `n` is even. -/
structure Nearest (q : ℚ) (n : ℤ) : Prop where
  near : |q - n| ≤ 1 / 2
  tie : |q - n| = 1 / 2 → Even n

variable {q q' : ℚ} {n n' : ℤ}

theorem nearest_int (n : ℤ) : Nearest n n := by
  refine ⟨?_, ?_⟩
  · rw [sub_self, abs_zero]
    norm_num
  · intro h
    rw [sub_self, abs_zero] at h
    norm_num at h

theorem Nearest.neg (h : Nearest q n) : Nearest (-q) (-n) := by
  have habs : |-q - ((-n : ℤ) : ℚ)| = |q - n| := by
    rw [Int.cast_neg, ← neg_sub', abs_neg]
  refine ⟨habs ▸ h.near, fun htie => ?_⟩
  exact (h.tie (habs ▸ htie)).neg

/-- Of two numbers, the greater one has the greater nearest integer. -/
theorem Nearest.mono (h : Nearest q n) (h' : Nearest q' n') (hq : q ≤ q') : n ≤ n' := by
  by_contra hn
  have hstep : (n' : ℚ) + 1 ≤ n := by exact_mod_cast Int.add_one_le_iff.mpr (not_le.mp hn)
  have hlow := (abs_le.mp h.near).1
  have hhigh := (abs_le.mp h'.near).2
  -- both are halfway between neighbours, so both neighbours are even
  have heven : Even n := h.tie (by rw [abs_of_nonpos] <;> linarith)
  have heven' : Even n' := h'.tie (by rw [abs_of_nonneg] <;> linarith)
  have hnext : n = n' + 1 := by
    have hle : (n : ℚ) ≤ n' + 1 := by linarith
    have hle' : n ≤ n' + 1 := by exact_mod_cast hle
    omega
  rw [hnext] at heven
  exact Int.even_add_one.mp heven heven'

/-! ## The grid -/

/-- On the multiples of `2 ^ t`, the number `x` takes 53 bits, or fewer if the grid cannot be
finer. -/
structure Scale (x : ℚ) (t : ℤ) : Prop where
  least : -1074 ≤ t
  below : |x| < 2 ^ (t + 53)
  tight : t = -1074 ∨ 2 ^ (t + 52) ≤ |x|

variable {x x' y y' : ℚ} {t t' : ℤ}

theorem two_zpow_le {a b : ℤ} : (2 : ℚ) ^ a ≤ 2 ^ b ↔ a ≤ b :=
  zpow_le_zpow_iff_right₀ (by norm_num)

theorem two_zpow_lt {a b : ℤ} : (2 : ℚ) ^ a < 2 ^ b ↔ a < b :=
  zpow_lt_zpow_iff_right₀ (by norm_num)

theorem two_zpow_pos (a : ℤ) : (0 : ℚ) < 2 ^ a := zpow_pos (by norm_num) a

theorem two_zpow_add (a b : ℤ) : (2 : ℚ) ^ (a + b) = 2 ^ a * 2 ^ b :=
  zpow_add₀ (by norm_num) a b

theorem Scale.mono (h : Scale x t) (h' : Scale x' t') (hx : |x| ≤ |x'|) : t ≤ t' := by
  rcases h.tight with rfl | htight
  · exact h'.least
  · have : (2 : ℚ) ^ (t + 52) < 2 ^ (t' + 53) := (htight.trans hx).trans_lt h'.below
    have := two_zpow_lt.mp this
    omega

theorem Scale.neg (h : Scale x t) : Scale (-x) t := by
  refine ⟨h.least, ?_, ?_⟩
  · rw [abs_neg]
    exact h.below
  · rw [abs_neg]
    exact h.tight

/-- The nearest point of the grid takes no more than 53 bits, but for the power of two itself. -/
theorem Scale.nearest_le (h : Scale x t) (hnearest : Nearest (x / 2 ^ t) n) (hx : 0 ≤ x) :
    n ≤ 2 ^ 53 := by
  refine hnearest.mono (nearest_int (2 ^ 53)) ?_
  have hbelow := h.below
  rw [abs_of_nonneg hx, add_comm, two_zpow_add] at hbelow
  rw [div_le_iff₀ (two_zpow_pos t)]
  push_cast
  exact hbelow.le

/-- The nearest point of the grid takes 53 bits, unless the grid cannot be finer. -/
theorem Scale.le_nearest (h : Scale x t) (hnearest : Nearest (x / 2 ^ t) n) (hx : 0 ≤ x) :
    t = -1074 ∨ 2 ^ 52 ≤ n := by
  rcases h.tight with hleast | htight
  · exact .inl hleast
  · refine .inr ((nearest_int (2 ^ 52)).mono hnearest ?_)
    rw [abs_of_nonneg hx, add_comm, two_zpow_add] at htight
    rw [le_div_iff₀ (two_zpow_pos t)]
    push_cast
    exact htight

/-! ## Rounding -/

/-- The number `x` is rounded to `y`. -/
def Rounds (x y : ℚ) : Prop := ∃ t n, Scale x t ∧ Nearest (x / 2 ^ t) n ∧ y = n * 2 ^ t

theorem Rounds.neg (h : Rounds x y) : Rounds (-x) (-y) := by
  obtain ⟨t, n, hscale, hnearest, rfl⟩ := h
  refine ⟨t, -n, hscale.neg, ?_, ?_⟩
  · rw [neg_div]
    exact hnearest.neg
  · push_cast
    ring

/-- Numbers on the grid stay. -/
theorem rounds_grid (h : Scale (n * 2 ^ t) t) : Rounds (n * 2 ^ t) (n * 2 ^ t) := by
  refine ⟨t, n, h, ?_, rfl⟩
  rw [mul_div_cancel_right₀ _ (two_zpow_pos t).ne']
  exact nearest_int n

theorem Rounds.nonneg (h : Rounds x y) (hx : 0 ≤ x) : 0 ≤ y := by
  obtain ⟨t, n, -, hnearest, rfl⟩ := h
  have hq : ((0 : ℤ) : ℚ) ≤ x / 2 ^ t := by
    rw [Int.cast_zero]
    exact div_nonneg hx (two_zpow_pos t).le
  have hn : (0 : ℤ) ≤ n := (nearest_int 0).mono hnearest hq
  exact mul_nonneg (by exact_mod_cast hn) (two_zpow_pos t).le

theorem Rounds.mono_of_nonneg (h : Rounds x y) (h' : Rounds x' y') (hx : 0 ≤ x) (hxx : x ≤ x') :
    y ≤ y' := by
  obtain ⟨t, n, hscale, hnearest, rfl⟩ := h
  obtain ⟨t', n', hscale', hnearest', rfl⟩ := h'
  have habs : |x| = x := abs_of_nonneg hx
  have habs' : |x'| = x' := abs_of_nonneg (hx.trans hxx)
  have htt := hscale.mono hscale' (by rw [habs, habs']; exact hxx)
  rcases htt.eq_or_lt with rfl | hlt
  · have hn : n ≤ n' := hnearest.mono hnearest' (by gcongr)
    gcongr
  · -- the second grid is coarser: a power of two lies between the results
    have hn := hscale.nearest_le hnearest hx
    have hn' := (hscale'.le_nearest hnearest' (hx.trans hxx)).resolve_left
      (by have := hscale.least; omega)
    calc (n : ℚ) * 2 ^ t ≤ 2 ^ (53 : ℤ) * 2 ^ t := by
          gcongr
          exact_mod_cast hn
      _ = 2 ^ (t + 53) := by rw [add_comm, two_zpow_add]
      _ ≤ 2 ^ (t' + 52) := two_zpow_le.mpr (by omega)
      _ = 2 ^ (52 : ℤ) * 2 ^ t' := by rw [add_comm, two_zpow_add]
      _ ≤ n' * 2 ^ t' := by
          gcongr
          exact_mod_cast hn'

/-- **Rounding is monotone.** -/
theorem Rounds.mono (h : Rounds x y) (h' : Rounds x' y') (hx : x ≤ x') : y ≤ y' := by
  rcases le_total 0 x with hpos | hneg
  · exact h.mono_of_nonneg h' hpos hx
  · rcases le_total 0 x' with hpos' | hneg'
    · have hy := h.neg.nonneg (by linarith)
      have hy' := h'.nonneg hpos'
      linarith
    · have := h'.neg.mono_of_nonneg h.neg (by linarith) (by linarith)
      linarith

/-- A number is rounded to one result only. -/
theorem Rounds.unique (h : Rounds x y) (h' : Rounds x y') : y = y' :=
  le_antisymm (h.mono h' le_rfl) (h'.mono h le_rfl)

end VehiclePrivacy.Binary64
