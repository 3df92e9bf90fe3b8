import AlphaMiner.Lib.Buffer

/-!
# SHA-256 (FIPS 180-4)

The hash of a string of bytes, in the terms of the standard: the message is padded
to a whole number of blocks, every block is expanded to a schedule of 64 words, and
64 rounds shift eight working variables along.

Code that hashes a message block by block is compared with `hashBlocks`, which
takes the padded message from the front. The number of zeros in the padding is
fixed by the length, so a message that ends in the middle of a block leaves one
block to do or two (`padding_one`, `padding_two`).
-/

namespace AlphaMiner.Lib.Sha256

/-! ## Functions and constants -/

def rotr (n x : UInt32) : UInt32 := (x >>> n) ||| (x <<< (32 - n))

def ch (x y z : UInt32) : UInt32 := (x &&& y) ^^^ (~~~x &&& z)

def maj (x y z : UInt32) : UInt32 := (x &&& y) ^^^ (x &&& z) ^^^ (y &&& z)

def bigSigma0 (x : UInt32) : UInt32 := rotr 2 x ^^^ rotr 13 x ^^^ rotr 22 x

def bigSigma1 (x : UInt32) : UInt32 := rotr 6 x ^^^ rotr 11 x ^^^ rotr 25 x

def smallSigma0 (x : UInt32) : UInt32 := rotr 7 x ^^^ rotr 18 x ^^^ (x >>> 3)

def smallSigma1 (x : UInt32) : UInt32 := rotr 17 x ^^^ rotr 19 x ^^^ (x >>> 10)

/-- The working variables, and the hash value between two blocks. -/
structure Vars where
  a : UInt32
  b : UInt32
  c : UInt32
  d : UInt32
  e : UInt32
  f : UInt32
  g : UInt32
  h : UInt32
  deriving DecidableEq

namespace Vars

def toList (v : Vars) : List UInt32 := [v.a, v.b, v.c, v.d, v.e, v.f, v.g, v.h]

def add (v w : Vars) : Vars :=
  ⟨v.a + w.a, v.b + w.b, v.c + w.c, v.d + w.d, v.e + w.e, v.f + w.f, v.g + w.g, v.h + w.h⟩

end Vars

def initial : Vars where
  a := 0x6a09e667
  b := 0xbb67ae85
  c := 0x3c6ef372
  d := 0xa54ff53a
  e := 0x510e527f
  f := 0x9b05688c
  g := 0x1f83d9ab
  h := 0x5be0cd19

def constants : List UInt32 :=
  [0x428a2f98, 0x71374491, 0xb5c0fbcf, 0xe9b5dba5, 0x3956c25b, 0x59f111f1, 0x923f82a4, 0xab1c5ed5,
   0xd807aa98, 0x12835b01, 0x243185be, 0x550c7dc3, 0x72be5d74, 0x80deb1fe, 0x9bdc06a7, 0xc19bf174,
   0xe49b69c1, 0xefbe4786, 0x0fc19dc6, 0x240ca1cc, 0x2de92c6f, 0x4a7484aa, 0x5cb0a9dc, 0x76f988da,
   0x983e5152, 0xa831c66d, 0xb00327c8, 0xbf597fc7, 0xc6e00bf3, 0xd5a79147, 0x06ca6351, 0x14292967,
   0x27b70a85, 0x2e1b2138, 0x4d2c6dfc, 0x53380d13, 0x650a7354, 0x766a0abb, 0x81c2c92e, 0x92722c85,
   0xa2bfe8a1, 0xa81a664b, 0xc24b8b70, 0xc76c51a3, 0xd192e819, 0xd6990624, 0xf40e3585, 0x106aa070,
   0x19a4c116, 0x1e376c08, 0x2748774c, 0x34b0bcb5, 0x391c0cb3, 0x4ed8aa4a, 0x5b9cca4f, 0x682e6ff3,
   0x748f82ee, 0x78a5636f, 0x84c87814, 0x8cc70208, 0x90befffa, 0xa4506ceb, 0xbef9a3f7, 0xc67178f2]

/-- The first 64 primes. -/
def primes : List Nat :=
  [2, 3, 5, 7, 11, 13, 17, 19, 23, 29, 31, 37, 41, 43, 47, 53, 59, 61, 67, 71, 73, 79, 83, 89, 97,
   101, 103, 107, 109, 113, 127, 131, 137, 139, 149, 151, 157, 163, 167, 173, 179, 181, 191, 193,
   197, 199, 211, 223, 227, 229, 233, 239, 241, 251, 257, 263, 269, 271, 277, 281, 283, 293, 307,
   311]

/-- Whether `x` is the first 32 bits behind the point of the `k`-th root of `p`. -/
def isFraction (k p : Nat) (x : UInt32) : Bool :=
  (List.range 8).any fun m =>
    (2 ^ 32 * m + x.toNat) ^ k ≤ p * 2 ^ (32 * k) &&
      p * 2 ^ (32 * k) < (2 ^ 32 * m + x.toNat + 1) ^ k

example : ((initial.toList.zip primes).all fun xp => isFraction 2 xp.2 xp.1) = true := by decide

example : ((constants.zip primes).all fun xp => isFraction 3 xp.2 xp.1) = true := by decide

/-! ## One block -/

/-- The word that continues a schedule. -/
def nextWord (w : List UInt32) : UInt32 :=
  let t := w.length
  smallSigma1 (w.getD (t - 2) 0) + w.getD (t - 7) 0 + smallSigma0 (w.getD (t - 15) 0) +
    w.getD (t - 16) 0

def expand : Nat → List UInt32 → List UInt32
  | 0, w => w
  | n + 1, w => expand n (w ++ [nextWord w])

theorem expand_add (m n : Nat) (w : List UInt32) :
    expand (m + n) w = expand n (expand m w) := by
  induction m generalizing w with
  | zero => rw [Nat.zero_add, expand]
  | succ m ih => rw [Nat.succ_add, expand, ih, expand]

@[simp] theorem length_expand (n : Nat) (w : List UInt32) : (expand n w).length = w.length + n := by
  induction n generalizing w with
  | zero => rfl
  | succ n ih =>
      rw [expand, ih, List.length_append, List.length_singleton]
      omega

theorem take_expand {m n : Nat} (h : m ≤ n) (w : List UInt32) :
    (expand n w).take (w.length + m) = expand m w := by
  have hextends : ∀ (k : Nat) (v : List UInt32), v <+: expand k v := by
    intro k
    induction k with
    | zero => exact fun v => List.prefix_refl v
    | succ k ih => exact fun v => (List.prefix_append v _).trans (ih _)
  obtain ⟨k, rfl⟩ := Nat.exists_eq_add_of_le h
  rw [expand_add]
  have htake := List.prefix_iff_eq_take.mp (hextends k (expand m w))
  rw [length_expand] at htake
  exact htake.symm

/-- The word that continues a part of an array. -/
theorem nextWord_take (w : List UInt32) {t : Nat} (hmin : 16 ≤ t) (ht : t ≤ w.length) :
    nextWord (w.take t) = smallSigma1 (w.getD (t - 2) 0) + w.getD (t - 7) 0 +
      smallSigma0 (w.getD (t - 15) 0) + w.getD (t - 16) 0 := by
  have hget : ∀ k < t, (w.take t).getD k 0 = w.getD k 0 := by
    intro k hk
    rw [List.getD_eq_getElem?_getD, List.getD_eq_getElem?_getD, List.getElem?_take_of_lt hk]
  rw [nextWord, List.length_take, Nat.min_eq_left ht,
    hget _ (by omega), hget _ (by omega), hget _ (by omega), hget _ (by omega)]

/-- An array in which every word from `a` on continues the words in front of it. -/
theorem take_eq_expand {w : List UInt32} {a n : Nat} (hlen : a + n ≤ w.length)
    (h : ∀ t, a ≤ t → t < a + n → w.getD t 0 = nextWord (w.take t)) :
    w.take (a + n) = expand n (w.take a) := by
  induction n with
  | zero => rfl
  | succ n ih =>
      have hfront := ih (by omega) fun t hmin hmax => h t hmin (by omega)
      have hlast := h (a + n) (Nat.le_add_right a n) (by omega)
      rw [List.getD_eq_getElem?_getD, List.getElem?_eq_getElem (by omega), Option.getD_some] at hlast
      rw [← Nat.add_assoc, List.take_succ_eq_append_getElem (by omega), hlast, expand_add, hfront]
      rfl

/-- The message schedule of a block of 16 words. -/
def schedule (block : List UInt32) : List UInt32 := expand 48 block

def round (v : Vars) (kw : UInt32 × UInt32) : Vars :=
  let t1 := v.h + bigSigma1 v.e + ch v.e v.f v.g + kw.1 + kw.2
  let t2 := bigSigma0 v.a + maj v.a v.b v.c
  ⟨t1 + t2, v.a, v.b, v.c, v.d + t1, v.e, v.f, v.g⟩

def compress (v : Vars) (block : List UInt32) : Vars :=
  v.add ((constants.zip (schedule block)).foldl round v)

/-! ## Messages -/

/-- The length of a message in bits. -/
def be64enc (n : Nat) : Bytes := be32enc (.ofNat (n / 2 ^ 32)) ++ be32enc (.ofNat n)

/-- What is appended to a message of this many bytes. -/
def padding (len : Nat) : Bytes :=
  [0x80] ++ List.replicate ((119 - len % 64) % 64) 0 ++ be64enc (8 * len)

/-- The words of a string, a block of 64 bytes for one. -/
def blockWords : Bytes → List UInt32
  | a :: b :: c :: d :: m => be32dec [a, b, c, d] :: blockWords m
  | _ => []

/-- So many blocks from the front of a message. -/
def hashBlocks : Nat → Bytes → Vars → Vars
  | 0, _, v => v
  | n + 1, m, v => hashBlocks n (m.drop 64) (compress v (blockWords (m.take 64)))

def sha256 (m : Bytes) : Bytes :=
  let padded := m ++ padding m.length
  (hashBlocks (padded.length / 64) padded initial).toList.flatMap be32enc

/-! ## Blocks -/

theorem blockWords_be32enc (w : UInt32) (m : Bytes) :
    blockWords (be32enc w ++ m) = w :: blockWords m := by
  have hw := be32dec_be32enc w
  rw [be32enc] at hw ⊢
  simp only [List.cons_append, List.nil_append, blockWords]
  rw [hw]

@[simp] theorem blockWords_flatMap (ws : List UInt32) : blockWords (ws.flatMap be32enc) = ws := by
  induction ws with
  | nil => rfl
  | cons w ws ih => rw [List.flatMap_cons, blockWords_be32enc, ih]

/-- Words do not reach over the end of a string of whole words. -/
theorem blockWords_append (ws : List UInt32) (m : Bytes) :
    blockWords (ws.flatMap be32enc ++ m) = ws ++ blockWords m := by
  induction ws with
  | nil => rfl
  | cons w ws ih => rw [List.flatMap_cons, List.append_assoc, blockWords_be32enc, ih]; rfl

/-- The words that are found at every fourth byte. -/
theorem blockWords_slices {n : Nat} {b : Bytes} (hb : b.length = 4 * n) :
    blockWords b = (List.finRange n).map fun j : Fin n => be32dec (slice b (4 * j.val) 4) := by
  conv_lhs => rw [← flatMap_be32enc_be32dec hb]
  rw [blockWords_flatMap]

/-- The length goes into the last two words of a block. -/
theorem blockWords_set {b : Bytes} (hb : b.length = 56) (x : UInt32) :
    (blockWords (b ++ List.replicate 8 0)).set 15 x =
      blockWords (b ++ (be32enc 0 ++ be32enc x)) := by
  have hwords := flatMap_be32enc_be32dec (n := 14) hb
  have hzeros : List.replicate 8 0 = [(0 : UInt32), 0].flatMap be32enc := by decide
  have hlast : be32enc 0 ++ be32enc x = [0, x].flatMap be32enc := by simp
  rw [← hwords, hzeros, hlast, blockWords_append, blockWords_append, blockWords_flatMap,
    blockWords_flatMap, List.set_append_right _ _ (by simp)]
  simp

/-- The first block of a message is compressed first. -/
theorem hashBlocks_append {b : Bytes} (hb : b.length = 64) (m : Bytes) (v : Vars) :
    hashBlocks ((b ++ m).length / 64) (b ++ m) v =
      hashBlocks (m.length / 64) m (compress v (blockWords b)) := by
  have hcount : (b ++ m).length / 64 = m.length / 64 + 1 := by
    rw [List.length_append, hb]
    omega
  rw [hcount, hashBlocks, List.drop_left' hb, List.take_left' hb]

theorem hashBlocks_one {b : Bytes} (hb : b.length = 64) (v : Vars) :
    hashBlocks (b.length / 64) b v = compress v (blockWords b) := by
  have h := hashBlocks_append hb [] v
  rwa [List.append_nil] at h

/-! ## The padding -/

@[simp] theorem length_be64enc (n : Nat) : (be64enc n).length = 8 := rfl

theorem be64enc_of_lt {n : Nat} (h : n < 2 ^ 32) :
    be64enc n = be32enc 0 ++ be32enc (.ofNat n) := by
  rw [be64enc, Nat.div_eq_of_lt h]
  rfl

/-- What is left of a message, when the length fits into its block. -/
theorem padding_one {len : Nat} (h : len % 64 < 56) :
    padding len = [0x80] ++ List.replicate (55 - len % 64) 0 ++ be64enc (8 * len) := by
  rw [padding, show (119 - len % 64) % 64 = 55 - len % 64 by omega]

/-- When it does not, there is a block of zeros and the length. -/
theorem padding_two {len : Nat} (h : 56 ≤ len % 64) :
    padding len = [0x80] ++ List.replicate (63 - len % 64) 0 ++
      (List.replicate 56 0 ++ be64enc (8 * len)) := by
  rw [padding, show (119 - len % 64) % 64 = 63 - len % 64 + 56 by omega,
    ← List.replicate_append_replicate]
  simp only [List.append_assoc]

end AlphaMiner.Lib.Sha256
