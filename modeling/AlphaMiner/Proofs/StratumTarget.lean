import AlphaMiner.Lib.Rounding
import AlphaMiner.Model.Stratum
import Mathlib.Data.List.FinRange
import Mathlib.Data.Rat.Floor
import Mathlib.Tactic.IntervalCases
import Mathlib.Tactic.FieldSimp
import Mathlib.Tactic.Ring
import Mathlib.Tactic.NormNum
import Mathlib.Tactic.Linarith

/-!
# The target of a difficulty

The loop of `diff_to_target` divides by 2^32 until the quotient is at most one, and
so the place of the two words depends on which powers of 2^32 the difficulty is
between (`diffToTarget.loop_spec`). In that place the target is the quotient of
difficulty one rounded down (`roundsDown_diffToTarget`).

Two difficulties with different places have a power of 2^32 between them, and the
target of that power is a multiple of either unit.
-/

namespace AlphaMiner

open Lib

/-! ## The place -/

/-- How often the loop divides, and by which powers that is decided. -/
theorem diffToTarget.loop_spec (k : Nat) : ∀ d : Rat,
    (diffToTarget.loop k d).1 ≤ k ∧
      (diffToTarget.loop k d).2 * 4294967296 ^ (k - (diffToTarget.loop k d).1) = d ∧
      (0 < (diffToTarget.loop k d).1 → d ≤ 4294967296 ^ (k - (diffToTarget.loop k d).1)) ∧
      ((diffToTarget.loop k d).1 < k → 4294967296 ^ (k - (diffToTarget.loop k d).1 - 1) < d) := by
  induction k with
  | zero =>
      intro d
      simp [diffToTarget.loop]
  | succ k ih =>
      intro d
      by_cases hd : d > 1
      · rw [diffToTarget.loop, if_pos hd]
        obtain ⟨hle, hval, hmax, hmin⟩ := ih (d / 4294967296)
        have hexp : k + 1 - (diffToTarget.loop k (d / 4294967296)).1 =
            k - (diffToTarget.loop k (d / 4294967296)).1 + 1 := by omega
        rw [hexp, pow_succ, Nat.add_sub_cancel]
        refine ⟨by omega, by linarith, fun hpos => by linarith [hmax hpos], fun _ => ?_⟩
        rcases Nat.lt_or_ge (diffToTarget.loop k (d / 4294967296)).1 k with hlt | hge
        · have hstep : k - (diffToTarget.loop k (d / 4294967296)).1 =
              k - (diffToTarget.loop k (d / 4294967296)).1 - 1 + 1 := by omega
          rw [hstep, pow_succ]
          linarith [hmin hlt]
        · rw [Nat.sub_eq_zero_of_le hge, pow_zero]
          exact hd
      · rw [diffToTarget.loop, if_neg hd]
        simp only [Nat.sub_self, pow_zero, mul_one]
        exact ⟨Nat.le_refl _, trivial, fun _ => not_lt.mp hd, fun h => absurd h (Nat.lt_irrefl _)⟩

/-- The place falls as the difficulty grows. -/
theorem diffToTarget.loop_antitone (k : Nat) {d₁ d₂ : Rat} (h : d₁ ≤ d₂) :
    (diffToTarget.loop k d₂).1 ≤ (diffToTarget.loop k d₁).1 := by
  obtain ⟨hle₁, -, -, hmin⟩ := diffToTarget.loop_spec k d₁
  obtain ⟨hle₂, -, hmax, -⟩ := diffToTarget.loop_spec k d₂
  by_contra hlt
  have hpow : (4294967296 : Rat) ^ (k - (diffToTarget.loop k d₂).1) ≤
      4294967296 ^ (k - (diffToTarget.loop k d₁).1 - 1) :=
    pow_le_pow_right₀ (by norm_num) (by omega)
  have hd₂ := hmax (by omega)
  have hd₁ := hmin (by omega)
  linarith

/-- What the loop divided and the place of the words make up for each other. -/
theorem place_pow {k : Nat} (hk : k ≤ 6) :
    (4294967296 : Rat) ^ (6 - k) * 2 ^ (32 * k) = 2 ^ 192 := by
  rw [show (4294967296 : Rat) = 2 ^ 32 by norm_num, ← pow_mul, ← pow_add]
  congr 1
  omega

/-! ## The words -/

theorem wordsValue_place {k : Nat} (hk : k ≤ 6) (m : UInt64) :
    wordsValue (Vector.ofFn fun i : Fin 8 => if i.val = k then m.toUInt32
      else if i.val = k + 1 then (m >>> 32).toUInt32 else 0).toList = m.toNat * 2 ^ (32 * k) := by
  have hlow : m.toUInt32.toNat = m.toNat % 2 ^ 32 := UInt64.toNat_toUInt32 m
  have hhigh : (m >>> 32).toUInt32.toNat = m.toNat / 2 ^ 32 := by
    have := m.toNat_lt
    have hshift : (m >>> 32).toNat = m.toNat >>> 32 := UInt64.toNat_shiftRight m 32
    rw [UInt64.toNat_toUInt32, hshift, Nat.shiftRight_eq_div_pow]
    exact Nat.mod_eq_of_lt (by omega)
  have hwords : List.finRange 8 = [0, 1, 2, 3, 4, 5, 6, 7] := by decide
  rw [Vector.toList_ofFn, List.ofFn_eq_map, hwords]
  interval_cases k <;> simp [wordsValue, Nat.ofDigits_cons, hlow, hhigh] <;> omega

theorem roundsDown_diffToTarget {d : Rat} (hd : 4294901760 / 2 ^ 64 < d) :
    RoundsDown (2 ^ (32 * (diffToTarget.loop 6 d).1)) (4294901760 * 2 ^ 192 / d)
      (wordsValue (diffToTarget d).toList) := by
  obtain ⟨hle, hval, hmax, hmin⟩ := diffToTarget.loop_spec 6 d
  rw [diffToTarget]
  generalize diffToTarget.loop 6 d = r at *
  obtain ⟨k, x⟩ := r
  simp only at hle hval hmax hmin ⊢
  -- the last division was of a number above one
  have hx : 4294901760 / 2 ^ 64 < x := by
    rcases Nat.lt_or_ge k 6 with hlt | hge
    · have hmin := hmin hlt
      have hstep : 6 - k = 6 - k - 1 + 1 := by omega
      have hpow : (0 : Rat) < 4294967296 ^ (6 - k - 1) := by positivity
      rw [hstep, pow_succ] at hval
      by_contra hsmall
      have hbound : x * 4294967296 ≤ 1 := by linarith
      have hmul := mul_le_mul_of_nonneg_left hbound hpow.le
      linarith
    · rw [Nat.sub_eq_zero_of_le hge, pow_zero, mul_one] at hval
      rwa [hval]
  have hpos : 0 < x := lt_trans (by norm_num) hx
  have hquot : 4294901760 * 2 ^ 192 / d / (2 ^ (32 * k) : Nat) = 4294901760 / x := by
    rw [← hval, ← place_pow hle, Nat.cast_pow, Nat.cast_ofNat]
    field_simp
  have hfloor : (4294901760 / x).floor.toNat = ⌊4294901760 / x⌋₊ :=
    Int.floor_toNat (4294901760 / x)
  have hsize : ⌊4294901760 / x⌋₊ < 2 ^ 64 := by
    rw [Nat.floor_lt (by positivity), div_lt_iff₀ hpos]
    norm_num at hx ⊢
    linarith
  have hdown : RoundsDown (2 ^ (32 * k)) (4294901760 * 2 ^ 192 / d)
      (⌊4294901760 / x⌋₊ * 2 ^ (32 * k)) := by
    rw [← hquot]
    exact roundsDown_floor (Nat.two_pow_pos _) (by positivity)
  have hvalue : (UInt64.ofNat ⌊4294901760 / x⌋₊).toNat = ⌊4294901760 / x⌋₊ :=
    UInt64.toNat_ofNat_of_lt' hsize
  -- a difficulty that was not divided is at most one, and its quotient is not zero
  have hwords : ¬(UInt64.ofNat ⌊4294901760 / x⌋₊ = 0 ∧ k = 6) := by
    rintro ⟨hzero, rfl⟩
    have hd' := hmax (by decide)
    rw [pow_zero, mul_one] at hval
    rw [Nat.sub_self, pow_zero, ← hval] at hd'
    have hone : 1 ≤ ⌊4294901760 / x⌋₊ := by
      rw [Nat.one_le_floor_iff, le_div_iff₀ hpos]
      linarith
    rw [← hvalue, hzero] at hone
    exact absurd hone (by decide)
  rw [hfloor, if_neg hwords, wordsValue_place hle, hvalue]
  exact hdown

/-- The target of a difficulty is the target of difficulty one over it, rounded
down, and it does not grow with the difficulty. -/
theorem diffToTarget_quotient {d₁ d₂ : Rat} (hmin : 4294901760 / 2 ^ 64 < d₁) (hle : d₁ ≤ d₂) :
    (wordsValue (diffToTarget d₁).toList ≤ 4294901760 * 2 ^ 192 / d₁ ∧
      4294901760 * 2 ^ 192 / d₁ <
        wordsValue (diffToTarget d₁).toList + 2 ^ (32 * (diffToTarget.loop 6 d₁).1)) ∧
    wordsValue (diffToTarget d₂).toList ≤ wordsValue (diffToTarget d₁).toList := by
  have hdown₁ := roundsDown_diffToTarget hmin
  have hdown₂ := roundsDown_diffToTarget (hmin.trans_le hle)
  have hpos : (0 : Rat) < d₁ := lt_trans (by norm_num) hmin
  refine ⟨⟨hdown₁.le, by exact_mod_cast hdown₁.lt⟩, ?_⟩
  rcases (diffToTarget.loop_antitone 6 hle).eq_or_lt with heq | hlt
  · rw [heq] at hdown₂
    exact hdown₂.mono hdown₁ (div_le_div_of_nonneg_left (by positivity) hpos hle)
  · -- the power of 2^32 between the two, and its target
    obtain ⟨hle₁, -, hmax, -⟩ := diffToTarget.loop_spec 6 d₁
    obtain ⟨-, -, -, hmin₂⟩ := diffToTarget.loop_spec 6 d₂
    have hpow : 4294967296 ^ (6 - (diffToTarget.loop 6 d₁).1) ≤ d₂ := by
      have hexp : (4294967296 : Rat) ^ (6 - (diffToTarget.loop 6 d₁).1) ≤
          4294967296 ^ (6 - (diffToTarget.loop 6 d₂).1 - 1) :=
        pow_le_pow_right₀ (by norm_num) (by omega)
      linarith [hmin₂ (by omega)]
    have hbound : (4294901760 * 2 ^ (32 * (diffToTarget.loop 6 d₁).1) : Nat) =
        4294901760 * 2 ^ 192 / (4294967296 : Rat) ^ (6 - (diffToTarget.loop 6 d₁).1) := by
      rw [← place_pow hle₁]
      push_cast
      field_simp
    apply hdown₂.mono_of_between hdown₁ (Nat.dvd_mul_left _ 4294901760)
    · rw [hbound]
      exact div_le_div_of_nonneg_left (by positivity) (by positivity) hpow
    · rw [hbound]
      exact div_le_div_of_nonneg_left (by positivity) hpos (hmax (by omega))

theorem diffToTarget_quotient_sample :
    ((4294901760 / 2 ^ 64 : Rat) < 1 ∧ (1 : Rat) ≤ 2 ^ 33) ∧
      (wordsValue (diffToTarget 1).toList ≤ (4294901760 * 2 ^ 192 / 1 : Rat) ∧
        (4294901760 * 2 ^ 192 / 1 : Rat) <
          wordsValue (diffToTarget 1).toList + 2 ^ (32 * (diffToTarget.loop 6 1).1)) ∧
      wordsValue (diffToTarget (2 ^ 33)).toList ≤ wordsValue (diffToTarget 1).toList :=
  ⟨by norm_num, diffToTarget_quotient (by norm_num) (by norm_num)⟩

end AlphaMiner
