import Mathlib.Algebra.Group.Nat.Defs

/-!
# Rounding to a count of binary digits

A floating-point format with `p` digits has the numbers `m * 2 ^ e` for `m` below
`2 ^ p`. A whole number is brought into it by rounding to the nearest multiple of
what a digit in the last place is worth, and to the even one of two that are equally
near. `roundBits_eq_self_iff` says which numbers come out as they went in.
-/

namespace AlphaMiner.Lib

/-- The nearest multiple of `u`, between two the even one. -/
def roundHalfEven (u n : Nat) : Nat :=
  if 2 * (n % u) < u ∨ 2 * (n % u) = u ∧ n / u % 2 = 0 then u * (n / u) else u * (n / u + 1)

/-- What a digit in the last of `p` places is worth. -/
def lastPlace (p n : Nat) : Nat := 2 ^ (n.log2 + 1 - p)

def roundBits (p n : Nat) : Nat := roundHalfEven (lastPlace p n) n

/-- The number is one of the format. -/
def FitsBits (p n : Nat) : Prop := ∃ m e, m < 2 ^ p ∧ n = m * 2 ^ e

theorem roundHalfEven_eq_self_iff {u n : Nat} (hu : 0 < u) : roundHalfEven u n = n ↔ u ∣ n := by
  constructor
  · intro h
    rw [roundHalfEven] at h
    split at h
    · exact ⟨_, h.symm⟩
    · exact ⟨_, h.symm⟩
  · intro h
    have hrest : 2 * (n % u) < u := by
      rw [Nat.mod_eq_zero_of_dvd h]
      exact hu
    rw [roundHalfEven, if_pos (.inl hrest), Nat.mul_div_cancel' h]

theorem lastPlace_pos (p n : Nat) : 0 < lastPlace p n := Nat.two_pow_pos _

/-- Rounding leaves alone just the numbers that are in the format. -/
theorem roundBits_eq_self_iff {p n : Nat} : roundBits p n = n ↔ FitsBits p n := by
  rw [roundBits, roundHalfEven_eq_self_iff (lastPlace_pos p n), lastPlace]
  constructor
  · rintro ⟨m, hm⟩
    refine ⟨m, _, ?_, hm.trans (Nat.mul_comm _ m)⟩
    have hlt : m * 2 ^ (n.log2 + 1 - p) < 2 ^ p * 2 ^ (n.log2 + 1 - p) :=
      calc m * 2 ^ (n.log2 + 1 - p) = n := (hm.trans (Nat.mul_comm _ m)).symm
        _ < 2 ^ (n.log2 + 1) := Nat.lt_log2_self
        _ ≤ 2 ^ (p + (n.log2 + 1 - p)) := Nat.pow_le_pow_right Nat.two_pos (by omega)
        _ = 2 ^ p * 2 ^ (n.log2 + 1 - p) := Nat.pow_add 2 p _
    exact Nat.lt_of_mul_lt_mul_right hlt
  · rintro ⟨m, e, hm, rfl⟩
    rcases Nat.eq_zero_or_pos (m * 2 ^ e) with hzero | hpos
    · rw [hzero]
      exact Nat.dvd_zero _
    · have hlt : m * 2 ^ e < 2 ^ (p + e) := by
        rw [Nat.pow_add]
        exact Nat.mul_lt_mul_of_pos_right hm (Nat.two_pow_pos e)
      have hlog := (Nat.log2_lt (Nat.pos_iff_ne_zero.1 hpos)).2 hlt
      exact Nat.dvd_mul_left_of_dvd (Nat.pow_dvd_pow 2 (by omega)) m

end AlphaMiner.Lib
