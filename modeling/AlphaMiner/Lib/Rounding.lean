import Mathlib.Algebra.Order.Floor.Semiring
import Mathlib.Algebra.Order.Field.Basic

/-!
# Rounding down to a multiple of a unit

A number that is kept with a fixed count of digits has a unit that depends on its
size. With one unit, rounding down is monotone. Two numbers with different units
are compared through a multiple of the coarser unit that lies between them
(`RoundsDown.mono_of_between`).
-/

namespace AlphaMiner.Lib

variable {K : Type*} [Field K] [LinearOrder K] [IsStrictOrderedRing K]

/-- `n` is the last multiple of the unit `u` that is not above `x`. -/
structure RoundsDown (u : Nat) (x : K) (n : Nat) : Prop where
  dvd : u ∣ n
  le : (n : K) ≤ x
  lt : x < n + u

variable {u v n m b : Nat} {x y : K}

theorem roundsDown_floor [FloorSemiring K] (hu : 0 < u) (hx : 0 ≤ x) :
    RoundsDown u x (⌊x / u⌋₊ * u) := by
  have hunit : (0 : K) < u := Nat.cast_pos.mpr hu
  have hfloor := Nat.floor_le (div_nonneg hx hunit.le)
  have hnext := Nat.lt_floor_add_one (x / u)
  refine ⟨Nat.dvd_mul_left u _, ?_, ?_⟩
  · rw [Nat.cast_mul]
    exact (le_div_iff₀ hunit).mp hfloor
  · rw [Nat.cast_mul, ← add_one_mul]
    exact (div_lt_iff₀ hunit).mp hnext

/-- No multiple of the unit is between the two. -/
theorem RoundsDown.le_of_dvd (h : RoundsDown u x n) (hb : u ∣ b) (hle : (b : K) ≤ x) : b ≤ n := by
  have hlt : b < n + u := by exact_mod_cast hle.trans_lt h.lt
  exact Nat.le_of_lt_add_of_dvd hlt hb h.dvd

theorem RoundsDown.mono (hx : RoundsDown u x n) (hy : RoundsDown u y m) (h : x ≤ y) : n ≤ m :=
  hy.le_of_dvd hx.dvd (hx.le.trans h)

theorem RoundsDown.mono_of_between (hx : RoundsDown u x n) (hy : RoundsDown v y m) (hb : v ∣ b)
    (hxb : x ≤ b) (hby : (b : K) ≤ y) : n ≤ m := by
  have hnb : n ≤ b := by exact_mod_cast hx.le.trans hxb
  exact hnb.trans (hy.le_of_dvd hb hby)

end AlphaMiner.Lib
