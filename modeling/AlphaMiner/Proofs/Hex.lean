import AlphaMiner.Lib.Buffer
import AlphaMiner.Model.Util

/-!
# Hexadecimal strings and the bytes they stand for

`unhex` says what a hexadecimal string means, two digits a byte and nothing
for any other string. `hex2bin` agrees with it wherever it has a meaning
(`hex2bin_unhex`), and pads with zeros; on other strings it leaves something in
the buffer that the callers who ignore its answer have to live with. What it
leaves does not depend on what was there before, once it has accepted a string
(`hex2bin_overwrites`).
-/

namespace AlphaMiner

open Lib

/-- The bytes a hexadecimal string stands for. -/
def unhex : Bytes → Option Bytes
  | [] => some []
  | [_] => none
  | a :: b :: rest =>
      match hexNibble a, hexNibble b, unhex rest with
      | some x, some y, some p => some ((x <<< 4 ||| y) :: p)
      | _, _, _ => none

theorem unhex_cons_cons {a b : UInt8} {rest q : Bytes} (h : unhex (a :: b :: rest) = some q) :
    ∃ x y p, hexNibble a = some x ∧ hexNibble b = some y ∧ unhex rest = some p ∧
      q = (x <<< 4 ||| y) :: p := by
  rw [unhex] at h
  split at h
  · next x y p hx hy hp =>
      cases h
      exact ⟨x, y, p, hx, hy, hp, rfl⟩
  · cases h

theorem length_of_unhex : ∀ {s p : Bytes}, unhex s = some p → s.length = 2 * p.length
  | [], p, h => by
      cases h
      rfl
  | [_], p, h => by cases h
  | a :: b :: rest, p, h => by
      obtain ⟨x, y, q, -, -, hq, rfl⟩ := unhex_cons_cons h
      have := length_of_unhex hq
      simp only [List.length_cons]
      omega

/-- The number that a string of hexadecimal digits writes. -/
def hexNumber (s : Bytes) : Nat :=
  s.foldl (fun n c => 16 * n + ((hexNibble c).getD 0).toNat) 0

/-! ## Printing -/

theorem hexNibble_hexDigit : ∀ n : Fin 16,
    hexNibble (hexDigit (UInt8.ofNat n)) = some (UInt8.ofNat n) := by decide

theorem nibbles_byte : ∀ n : Fin 256,
    (UInt8.ofNat n >>> 4) <<< 4 ||| (UInt8.ofNat n &&& 15) = UInt8.ofNat n := by
  decide +kernel

theorem unhex_bin2hex (p : Bytes) : unhex (bin2hex p) = some p := by
  induction p with
  | nil => rfl
  | cons b p ih =>
      have hb := b.toNat_lt
      have hhi : b >>> 4 = UInt8.ofNat (⟨b.toNat / 16, by omega⟩ : Fin 16) := by
        apply UInt8.toNat_inj.mp
        simp [Nat.shiftRight_eq_div_pow]
        omega
      have hlo : b &&& 15 = UInt8.ofNat (⟨b.toNat % 16, by omega⟩ : Fin 16) := by
        apply UInt8.toNat_inj.mp
        rw [UInt8.toNat_and, show (15 : UInt8).toNat = 2 ^ 4 - 1 from rfl,
          Nat.and_two_pow_sub_one_eq_mod]
        simp
        omega
      have hbyte := nibbles_byte ⟨b.toNat, hb⟩
      rw [UInt8.ofNat_toNat] at hbyte
      have hunfold : bin2hex (b :: p) = hexDigit (b >>> 4) :: hexDigit (b &&& 15) :: bin2hex p :=
        rfl
      rw [hunfold, unhex, hhi, hlo, hexNibble_hexDigit, hexNibble_hexDigit, ih]
      simp only
      rw [← hhi, ← hlo, hbyte]

theorem length_bin2hex (p : Bytes) : (bin2hex p).length = 2 * p.length :=
  length_of_unhex (unhex_bin2hex p)

/-! ## Parsing -/

theorem modify_middle {α : Type} (f : α → α) (a : α) (l r : List α) :
    (l ++ a :: r).modify l.length f = l ++ f a :: r := by
  induction l with
  | nil => rfl
  | cons b l ih => simpa using ih

theorem hex2bin_loop_unhex (t : Bytes) : ∀ {s p : Bytes}, unhex s = some p →
    ∀ (d : Bytes) (k : Nat), p.length ≤ k →
      hex2bin.loop s (2 * d.length) (d ++ (List.replicate k 0 ++ t)) =
        (true, d ++ (p ++ (List.replicate (k - p.length) 0 ++ t)))
  | [], p, h, d, k, _ => by
      cases h
      simp [hex2bin.loop]
  | [_], p, h, _, _, _ => by cases h
  | a :: b :: rest, p, h, d, k, hk => by
      obtain ⟨x, y, q, hx, hy, hq, rfl⟩ := unhex_cons_cons h
      obtain ⟨k, rfl⟩ : ∃ k', k = k' + 1 := ⟨k - 1, by simp only [List.length_cons] at hk; omega⟩
      have hstep := hex2bin_loop_unhex t hq (d ++ [x <<< 4 ||| y]) k (by simpa using hk)
      rw [hex2bin.loop, hx]
      simp only
      rw [hex2bin.loop, hy]
      simp only
      rw [List.replicate_succ, List.cons_append, show 2 * d.length / 2 = d.length by omega,
        show (2 * d.length + 1) / 2 = d.length by omega, modify_middle, modify_middle,
        show (1 - 2 * d.length % 2) * 4 = 4 by omega,
        show (1 - (2 * d.length + 1) % 2) * 4 = 0 by omega]
      simp only [List.length_append, List.length_singleton, List.append_assoc,
        List.singleton_append] at hstep
      have hbyte : (0 : UInt8) ||| x <<< UInt8.ofNat 4 ||| y <<< UInt8.ofNat 0 =
          x <<< 4 ||| y := by
        simp
      rw [hbyte, show 2 * d.length + 1 + 1 = 2 * (d.length + 1) by omega, hstep]
      simp

/-- A well-formed string is decoded, and what is left of the `len` bytes cleared. -/
theorem hex2bin_front {s p : Bytes} {len : Nat} (h : unhex s = some p) (hlen : p.length ≤ len)
    (buf : Bytes) :
    hex2bin buf (some s) len =
      (true, p ++ (List.replicate (len - p.length) 0 ++ buf.drop len)) := by
  have hs := length_of_unhex h
  have hclear : store buf 0 (List.replicate len 0) =
      [] ++ (List.replicate len 0 ++ buf.drop len) := by
    simp [store]
  rw [hex2bin, if_neg (by omega), if_neg (by omega), hclear]
  exact hex2bin_loop_unhex (buf.drop len) h [] len hlen

theorem hex2bin_unhex {s p buf : Bytes} {len : Nat} (h : unhex s = some p)
    (hbuf : buf.length = len) (hlen : p.length ≤ len) :
    hex2bin buf (some s) len = (true, p ++ List.replicate (len - p.length) 0) := by
  rw [hex2bin_front h hlen, List.drop_eq_nil_of_le (Nat.le_of_eq hbuf),
    List.append_nil]

/-- `hex2bin` with a buffer made to measure. -/
theorem hex2bin_measured {s p : Bytes} (h : unhex s = some p) {buf : Bytes}
    (hbuf : buf.length = s.length / 2) : hex2bin buf (some s) (s.length / 2) = (true, p) := by
  have hlen := length_of_unhex h
  rw [hex2bin_unhex h hbuf (by omega), show s.length / 2 - p.length = 0 by omega]
  exact congrArg (Prod.mk true) (List.append_nil p)

theorem hex2binArray_unhex {n : Nat} {s q : Bytes} (p : Vector UInt8 n) (h : unhex s = some q)
    (hlen : q.length = n) : (hex2binArray p s).toList = q := by
  rw [hex2binArray, Vector.toList_mk, hex2bin_unhex h (by simp) (Nat.le_of_eq hlen), hlen]
  simp

theorem unhex_of_loop : ∀ (s : Bytes) (i : Nat) (p : Bytes),
    (hex2bin.loop s i p).1 = true → s.length % 2 = 0 → ∃ q, unhex s = some q
  | [], _, _, _, _ => ⟨[], rfl⟩
  | [_], _, _, _, h => by cases h
  | a :: b :: rest, i, p, h, heven => by
      rw [hex2bin.loop] at h
      cases hx : hexNibble a with
      | none =>
          rw [hx] at h
          cases h
      | some x =>
          rw [hx] at h
          simp only at h
          rw [hex2bin.loop] at h
          cases hy : hexNibble b with
          | none =>
              rw [hy] at h
              cases h
          | some y =>
              rw [hy] at h
              have hrest : rest.length % 2 = 0 := by
                simp only [List.length_cons] at heven
                omega
              obtain ⟨q, hq⟩ := unhex_of_loop rest _ _ h hrest
              exact ⟨(x <<< 4 ||| y) :: q, by rw [unhex, hx, hy, hq]⟩

/-- Only well-formed strings that fit are accepted. -/
theorem unhex_of_hex2bin {p s : Bytes} {len : Nat} (h : (hex2bin p (some s) len).1 = true) :
    ∃ q, unhex s = some q ∧ q.length ≤ len := by
  rw [hex2bin] at h
  split at h
  · cases h
  · next heven =>
      split at h
      · cases h
      · next hfit =>
          obtain ⟨q, hq⟩ := unhex_of_loop s 0 _ h (by omega)
          have hlen := length_of_unhex hq
          exact ⟨q, hq, by omega⟩

theorem hex2bin_refuses {s : Bytes} (h : unhex s = none) (buf : Bytes) (len : Nat) :
    (hex2bin buf (some s) len).1 = false := by
  rw [Bool.eq_false_iff]
  intro htrue
  obtain ⟨p, hp, -⟩ := unhex_of_hex2bin htrue
  rw [h] at hp
  cases hp

theorem hex2bin_overwrites {p p' : Bytes} {hexstr : Option Bytes} {len : Nat}
    (hp : p.length = len) (hp' : p'.length = len) (h : (hex2bin p hexstr len).1 = true) :
    hex2bin p' hexstr len = hex2bin p hexstr len := by
  have hclear : ∀ q : Bytes, q.length = len →
      store q 0 (List.replicate len 0) = List.replicate len 0 := by
    intro q hq
    simp [store, hq]
  unfold hex2bin at h ⊢
  cases hexstr with
  | none => cases h
  | some s =>
      simp only [hclear p hp, hclear p' hp'] at h ⊢
      split
      · next hodd =>
          rw [if_pos hodd] at h
          cases h
      · next hodd =>
          rw [if_neg hodd] at h
          split
          · next hlong =>
              rw [if_pos hlong] at h
              cases h
          · rfl

/-! ## Numbers -/

theorem hexNibble_lt : ∀ n : Fin 256, ((hexNibble (UInt8.ofNat n)).getD 0).toNat < 16 := by
  decide +kernel

theorem nibbles_toNat : ∀ x y : Fin 16,
    (UInt8.ofNat x <<< 4 ||| UInt8.ofNat y).toNat = 16 * x.val + y.val := by
  decide +kernel

theorem toNat_nibbles {a b x y : UInt8} (hx : hexNibble a = some x) (hy : hexNibble b = some y) :
    (x <<< 4 ||| y).toNat = 16 * x.toNat + y.toNat := by
  have hlt : ∀ {c z : UInt8}, hexNibble c = some z → z.toNat < 16 := by
    intro c z hz
    have h := hexNibble_lt ⟨c.toNat, c.toNat_lt⟩
    rwa [UInt8.ofNat_toNat, hz] at h
  have h := nibbles_toNat ⟨x.toNat, hlt hx⟩ ⟨y.toNat, hlt hy⟩
  rwa [UInt8.ofNat_toNat, UInt8.ofNat_toNat] at h

theorem foldl_hexNumber : ∀ {s p : Bytes}, unhex s = some p → ∀ n : Nat,
    s.foldl (fun n c => 16 * n + ((hexNibble c).getD 0).toNat) n =
      256 ^ p.length * n + leValue p.reverse
  | [], p, h, n => by
      cases h
      simp [leValue]
  | [_], p, h, _ => by cases h
  | a :: b :: rest, p, h, n => by
      obtain ⟨x, y, q, hx, hy, hq, rfl⟩ := unhex_cons_cons h
      have hbyte := toNat_nibbles hx hy
      have hlast : leValue ((x <<< 4 ||| y) :: q).reverse =
          leValue q.reverse + 256 ^ q.length * (x <<< 4 ||| y).toNat := by
        simp [leValue, Nat.ofDigits_append]
      rw [List.foldl_cons, List.foldl_cons, foldl_hexNumber hq, hlast, hx, hy, hbyte,
        List.length_cons, Option.getD_some, Option.getD_some]
      ring

/-- Read as a number, a string has its first byte as the most significant one. -/
theorem hexNumber_eq {s p : Bytes} (h : unhex s = some p) : hexNumber s = leValue p.reverse := by
  rw [hexNumber, foldl_hexNumber h]
  omega

end AlphaMiner
