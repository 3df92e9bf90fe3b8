import AlphaMiner.Lib.Transaction
import AlphaMiner.Model.Util

/-!
# Counts

`varint_encode` writes a count as a transaction has it, in the shortest of the four
forms (`varintEncode_eq`). A reader that insists on that form gets the count back, and
there is nothing that it takes for a count besides what `varint_encode` writes.
-/

namespace AlphaMiner

open Lib

theorem byte_mask (n : UInt64) : (n &&& 0xff).toUInt8 = UInt8.ofNat n.toNat := by
  have hmask : (0xff : UInt64).toNat = 2 ^ 8 - 1 := rfl
  rw [← UInt8.toNat_inj, UInt64.toNat_toUInt8, UInt64.toNat_and, hmask,
    Nat.and_two_pow_sub_one_eq_mod, UInt8.toNat_ofNat', Nat.mod_mod]

theorem byte_shift (n : UInt64) {i : Nat} (hi : i < 8) :
    ((n >>> (8 * UInt64.ofNat i)) &&& 0xff).toUInt8 = UInt8.ofNat (n.toNat / 256 ^ i) := by
  have hshift : (8 * UInt64.ofNat i).toNat = 8 * i := by
    rw [UInt64.toNat_mul, UInt64.toNat_ofNat_of_lt' (Nat.lt_trans hi (by decide)),
      show (8 : UInt64).toNat = 8 from rfl]
    omega
  have hpow : 2 ^ (8 * i) = 256 ^ i := by rw [Nat.pow_mul]
  rw [byte_mask, UInt64.toNat_shiftRight, hshift, Nat.mod_eq_of_lt (show 8 * i < 64 by omega),
    Nat.shiftRight_eq_div_pow, hpow]

/-- The count is encoded as its format has it. -/
theorem varintEncode_eq (n : UInt64) : varintEncode n = compactSize n.toNat := by
  have hbytes : ∀ w ≤ 8, (List.range w).map (fun i =>
      ((n >>> (8 * UInt64.ofNat i)) &&& 0xff).toUInt8) = leBytes w n.toNat := by
    intro w hw
    rw [leBytes_eq_map]
    exact List.map_congr_left fun i hi =>
      byte_shift n (Nat.lt_of_lt_of_le (List.mem_range.1 hi) hw)
  have hsmall : n < 0xfd ↔ n.toNat < 0xfd := UInt64.lt_iff_toNat_lt
  have hword : n ≤ 0xffff ↔ n.toNat ≤ 0xffff := UInt64.le_iff_toNat_le
  have hlong : n ≤ 0xffffffff ↔ n.toNat ≤ 0xffffffff := UInt64.le_iff_toNat_le
  rw [varintEncode, compactSize]
  simp only [hsmall, hword, hlong]
  split
  · rfl
  · split
    · have hhigh : (n >>> 8).toUInt8 = UInt8.ofNat (n.toNat / 256) := by
        rw [← UInt8.toNat_inj, UInt64.toNat_toUInt8, UInt64.toNat_shiftRight,
          Nat.shiftRight_eq_div_pow, UInt8.toNat_ofNat']
        rfl
      rw [byte_mask, hhigh]
      rfl
    · split
      · rw [hbytes 4 (by omega)]
        rfl
      · rw [hbytes 8 (Nat.le_refl 8)]
        rfl

/-- Read under the strict rules, a count is what it was written for, and the bytes behind
it are left; no count is the front of another. -/
theorem varintEncode_canonical :
    (∀ (n : UInt64) (rest : Bytes),
      Reader.minimalCount (varintEncode n ++ rest) = some (n.toNat, rest) ∧
        (varintEncode n).length = if n < 0xfd then 1 else if n ≤ 0xffff then 3
          else if n ≤ 0xffffffff then 5 else 9) ∧
    (∀ (k : Nat) (bs rest : Bytes), Reader.minimalCount bs = some (k, rest) →
      ∃ n : UInt64, n.toNat = k ∧ bs = varintEncode n ++ rest) ∧
    Function.Injective varintEncode ∧
    ∀ m n : UInt64, varintEncode m <+: varintEncode n → m = n := by
  have hread : ∀ (n : UInt64) (rest : Bytes),
      Reader.minimalCount (varintEncode n ++ rest) = some (n.toNat, rest) := fun n rest => by
    rw [varintEncode_eq]
    exact reads_minimalCount n.toNat_lt rest
  have hextends : ∀ m n : UInt64, varintEncode m <+: varintEncode n → m = n := by
    rintro m n ⟨rest, happend⟩
    have hm := hread m rest
    rw [happend, ← List.append_nil (varintEncode n), hread] at hm
    exact UInt64.toNat_inj.mp (congrArg Prod.fst (Option.some.inj hm)).symm
  refine ⟨fun n rest => ⟨hread n rest, ?_⟩, fun k bs rest h => ?_, fun m n h => ?_, hextends⟩
  · rw [varintEncode_eq, length_compactSize]
    simp only [UInt64.lt_iff_toNat_lt, UInt64.le_iff_toNat_le, UInt64.reduceToNat]
  · obtain ⟨hk, rfl⟩ := eq_compactSize h
    refine ⟨UInt64.ofNat k, UInt64.toNat_ofNat_of_lt' hk, ?_⟩
    rw [varintEncode_eq, UInt64.toNat_ofNat_of_lt' hk]
  · exact hextends m n (h ▸ List.prefix_refl _)

theorem varintEncode_canonical_sample :
    Reader.minimalCount [0xfd, 0xfd, 0x00, 7] = some (0xfd, [7]) ∧
      (∃ n : UInt64, n.toNat = 0xfd ∧ [0xfd, 0xfd, 0x00, 7] = varintEncode n ++ [7]) ∧
      ((0xfd : UInt64) = 0xfd) :=
  ⟨(varintEncode_canonical.1 0xfd [7]).1,
    varintEncode_canonical.2.1 0xfd _ [7] (varintEncode_canonical.1 0xfd [7]).1,
    varintEncode_canonical.2.2.2 0xfd 0xfd (List.prefix_refl _)⟩

/-- The marker of four bytes in front of a number that two bytes hold. -/
example : Reader.minimalCount [0xfe, 0xfd, 0x00, 0x00, 0x00] = none := by decide

end AlphaMiner
