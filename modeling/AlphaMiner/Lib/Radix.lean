import AlphaMiner.Lib.Endian
import Mathlib.Data.List.TakeWhile
import Mathlib.Data.Nat.Digits.Lemmas

/-!
# Numerals with the first digit on the left

Mathlib's digit lists begin at the low end. What is read or written as text, or
sent over a wire, begins at the high end, so `ofNumeral` and `numeral` are
`Nat.ofDigits` and `Nat.digitsAppend` the other way round. A reader that takes
one digit after the other works by `ofNumeral_concat`.

A numeral of a given length is determined by its number (`eq_numeral_iff`). Without
the length it is determined up to the zeros in front: `zeros_append_digits` cuts
any numeral into these and the shortest one.
-/

namespace AlphaMiner.Lib

/-- The number that digits in base `b` stand for. -/
def ofNumeral (b : Nat) (ds : List Nat) : Nat := Nat.ofDigits b ds.reverse

/-- The number `n` with `k` digits in base `b`. -/
def numeral (b k n : Nat) : List Nat := (Nat.digitsAppend b k n).reverse

@[simp] theorem ofNumeral_nil (b : Nat) : ofNumeral b [] = 0 := rfl

theorem ofNumeral_append (b : Nat) (xs ys : List Nat) :
    ofNumeral b (xs ++ ys) = ofNumeral b xs * b ^ ys.length + ofNumeral b ys := by
  rw [ofNumeral, List.reverse_append, Nat.ofDigits_append, List.length_reverse, ofNumeral,
    ofNumeral, Nat.mul_comm, Nat.add_comm]

theorem ofNumeral_concat (b : Nat) (ds : List Nat) (d : Nat) :
    ofNumeral b (ds ++ [d]) = ofNumeral b ds * b + d := by
  rw [ofNumeral_append]
  simp [ofNumeral]

theorem ofNumeral_cons (b d : Nat) (ds : List Nat) :
    ofNumeral b (d :: ds) = d * b ^ ds.length + ofNumeral b ds := by
  rw [← List.singleton_append, ofNumeral_append]
  simp [ofNumeral]

theorem ofNumeral_lt {b : Nat} (hb : 1 < b) {ds : List Nat} (hds : ∀ d ∈ ds, d < b) :
    ofNumeral b ds < b ^ ds.length := by
  have h := Nat.ofDigits_lt_base_pow_length hb (l := ds.reverse) (by simpa using hds)
  rwa [List.length_reverse] at h

theorem length_numeral {b k n : Nat} (hb : 1 < b) (hn : n < b ^ k) :
    (numeral b k n).length = k := by
  rw [numeral, List.length_reverse, Nat.length_digitsAppend hb k hn]

theorem lt_of_mem_numeral {b k n d : Nat} (hb : 1 < b) (hd : d ∈ numeral b k n) : d < b :=
  Nat.lt_of_mem_digitsAppend hb k d (List.mem_reverse.mp hd)

@[simp] theorem ofNumeral_numeral (b k n : Nat) : ofNumeral b (numeral b k n) = n := by
  rw [ofNumeral, numeral, List.reverse_reverse, Nat.digitsAppend,
    Nat.ofDigits_append_replicate_zero, Nat.ofDigits_digits]

theorem ofNumeral_inj {b : Nat} (hb : 1 < b) {xs ys : List Nat} (hlen : xs.length = ys.length)
    (hxs : ∀ d ∈ xs, d < b) (hys : ∀ d ∈ ys, d < b) (h : ofNumeral b xs = ofNumeral b ys) :
    xs = ys := by
  have hrev : xs.reverse = ys.reverse :=
    Nat.ofDigits_inj_of_len_eq hb (by simpa using hlen) (by simpa using hxs)
      (by simpa using hys) h
  exact List.reverse_inj.mp hrev

/-- Of a given length there is one numeral of every number. -/
theorem eq_numeral_iff {b k n : Nat} (hb : 1 < b) (hn : n < b ^ k) {ds : List Nat}
    (hds : ∀ d ∈ ds, d < b) : ds = numeral b k n ↔ ds.length = k ∧ ofNumeral b ds = n := by
  constructor
  · intro h
    rw [h]
    exact ⟨length_numeral hb hn, ofNumeral_numeral b k n⟩
  · intro h
    obtain ⟨hlen, hvalue⟩ := h
    refine ofNumeral_inj hb (by rw [hlen, length_numeral hb hn]) hds
      (fun _ => lt_of_mem_numeral hb) ?_
    rw [hvalue, ofNumeral_numeral]

theorem ofNumeral_zeros (b n : Nat) (ds : List Nat) :
    ofNumeral b (List.replicate n 0 ++ ds) = ofNumeral b ds := by
  rw [ofNumeral, List.reverse_append, List.reverse_replicate, Nat.ofDigits_append_replicate_zero,
    ofNumeral]

/-- The zeros in front of a numeral. -/
def zeros (ds : List Nat) : Nat := (ds.takeWhile (· = 0)).length

@[simp] theorem zeros_nil : zeros [] = 0 := rfl

@[simp] theorem zeros_zero_cons (ds : List Nat) : zeros (0 :: ds) = zeros ds + 1 := by
  simp [zeros]

theorem zeros_cons_of_ne {d : Nat} (hd : d ≠ 0) (ds : List Nat) : zeros (d :: ds) = 0 := by
  simp [zeros, hd]

theorem takeWhile_zero (ds : List Nat) : ds.takeWhile (· = 0) = List.replicate (zeros ds) 0 := by
  refine List.eq_replicate_iff.mpr ⟨rfl, fun d hd => ?_⟩
  simpa using List.mem_takeWhile_imp hd

/-- Behind the zeros in front stands the shortest numeral. -/
theorem zeros_append_digits {b : Nat} (hb : 1 < b) {ds : List Nat} (hds : ∀ d ∈ ds, d < b) :
    ds = List.replicate (zeros ds) 0 ++ (Nat.digits b (ofNumeral b ds)).reverse := by
  have hcut : List.replicate (zeros ds) 0 ++ ds.dropWhile (· = 0) = ds := by
    rw [← takeWhile_zero]
    exact List.takeWhile_append_dropWhile
  have hdigits : Nat.digits b (ofNumeral b (ds.dropWhile (· = 0))) =
      (ds.dropWhile (· = 0)).reverse := by
    refine Nat.digits_ofDigits b hb _ (fun d hd => ?_) (fun hne => ?_)
    · exact hds d (List.dropWhile_subset _ (List.mem_reverse.mp hd))
    · rw [List.getLast_reverse]
      simpa using List.head_dropWhile_not (fun d : Nat => decide (d = 0)) (by simpa using hne)
  rw [← ofNumeral_zeros b (zeros ds) (ds.dropWhile _), hcut] at hdigits
  rw [hdigits, List.reverse_reverse, hcut]

/-! ## Bytes as digits -/

def bytesNumber (p : Bytes) : Nat := ofNumeral 256 (p.map UInt8.toNat)

theorem byte_lt {p : Bytes} : ∀ d ∈ p.map UInt8.toNat, d < 256 := by
  intro d hd
  obtain ⟨c, -, rfl⟩ := List.mem_map.mp hd
  exact c.toNat_lt

theorem bytesNumber_lt (p : Bytes) : bytesNumber p < 2 ^ (8 * p.length) := by
  have h := ofNumeral_lt (by decide) (byte_lt (p := p))
  rwa [List.length_map, show (256 : Nat) = 2 ^ 8 from rfl, ← Nat.pow_mul] at h

theorem bytesNumber_inj {p q : Bytes} (hlen : p.length = q.length)
    (h : bytesNumber p = bytesNumber q) : p = q := by
  have hmap := ofNumeral_inj (by decide) (by simpa using hlen) byte_lt byte_lt h
  exact List.map_injective_iff.mpr (fun _ _ => UInt8.toNat_inj.mp) hmap

theorem bytesNumber_append (p q : Bytes) :
    bytesNumber (p ++ q) = bytesNumber p * 256 ^ q.length + bytesNumber q := by
  rw [bytesNumber, List.map_append, ofNumeral_append, List.length_map]
  rfl

/-- The number `n` in `w` bytes. -/
def bigEndian (w n : Nat) : Bytes := (numeral 256 w n).map UInt8.ofNat

theorem eq_bigEndian_iff {w n : Nat} (hn : n < 256 ^ w) {p : Bytes} :
    p = bigEndian w n ↔ p.length = w ∧ bytesNumber p = n := by
  have hbytes : (bigEndian w n).map UInt8.toNat = numeral 256 w n := by
    rw [bigEndian, List.map_map, List.map_congr_left (g := id), List.map_id]
    intro d hd
    exact UInt8.toNat_ofNat_of_lt' (lt_of_mem_numeral (by decide) hd)
  have heq : p = bigEndian w n ↔ p.map UInt8.toNat = numeral 256 w n := by
    rw [← hbytes]
    exact (List.map_injective_iff.mpr fun _ _ => UInt8.toNat_inj.mp).eq_iff.symm
  rw [heq, eq_numeral_iff (by decide) hn byte_lt, List.length_map, bytesNumber]

/-- Digits in base `2 ^ 32`, each in four bytes of its own. -/
theorem bytesNumber_flatMap_be32enc (words : List UInt32) :
    bytesNumber (words.flatMap be32enc) = ofNumeral (2 ^ 32) (words.map UInt32.toNat) := by
  induction words using List.reverseRecOn with
  | nil => rfl
  | append_singleton words w ih =>
      have hw := w.toNat_lt
      have hword : bytesNumber (be32enc w) = w.toNat := by
        simp [bytesNumber, ofNumeral, be32enc, Nat.ofDigits, Nat.shiftRight_eq_div_pow]
        omega
      rw [List.flatMap_append, List.flatMap_singleton, bytesNumber_append, ih, hword,
        length_be32enc, List.map_append, List.map_singleton, ofNumeral_concat,
        show 256 ^ 4 = 2 ^ 32 from rfl]

end AlphaMiner.Lib
