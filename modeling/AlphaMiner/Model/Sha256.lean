import AlphaMiner.Lib.Buffer
import AlphaMiner.Model.Scan

/-!
# The hash function (`sha2.c`)

`sha256_transform` as it is compiled where there is no assembly for it, and
`sha256d`. The rounds leave the working variables in place: round `i` finds the
first of them in `S[(64 - i) % 8]` and the others behind it, and changes two.

`T` is cleared or filled as a whole in every round of `sha256d`, so it does not
carry anything over. Its bytes become words where they are.
-/

namespace AlphaMiner

open Lib

def sha256H : Vector UInt32 8 :=
  #v[0x6a09e667, 0xbb67ae85, 0x3c6ef372, 0xa54ff53a, 0x510e527f, 0x9b05688c, 0x1f83d9ab, 0x5be0cd19]

def sha256K : List UInt32 :=
  [0x428a2f98, 0x71374491, 0xb5c0fbcf, 0xe9b5dba5,
   0x3956c25b, 0x59f111f1, 0x923f82a4, 0xab1c5ed5,
   0xd807aa98, 0x12835b01, 0x243185be, 0x550c7dc3,
   0x72be5d74, 0x80deb1fe, 0x9bdc06a7, 0xc19bf174,
   0xe49b69c1, 0xefbe4786, 0x0fc19dc6, 0x240ca1cc,
   0x2de92c6f, 0x4a7484aa, 0x5cb0a9dc, 0x76f988da,
   0x983e5152, 0xa831c66d, 0xb00327c8, 0xbf597fc7,
   0xc6e00bf3, 0xd5a79147, 0x06ca6351, 0x14292967,
   0x27b70a85, 0x2e1b2138, 0x4d2c6dfc, 0x53380d13,
   0x650a7354, 0x766a0abb, 0x81c2c92e, 0x92722c85,
   0xa2bfe8a1, 0xa81a664b, 0xc24b8b70, 0xc76c51a3,
   0xd192e819, 0xd6990624, 0xf40e3585, 0x106aa070,
   0x19a4c116, 0x1e376c08, 0x2748774c, 0x34b0bcb5,
   0x391c0cb3, 0x4ed8aa4a, 0x5b9cca4f, 0x682e6ff3,
   0x748f82ee, 0x78a5636f, 0x84c87814, 0x8cc70208,
   0x90befffa, 0xa4506ceb, 0xbef9a3f7, 0xc67178f2]

/-! ## The compression function -/

namespace Sha2

def ch (x y z : UInt32) : UInt32 := (x &&& (y ^^^ z)) ^^^ z

def maj (x y z : UInt32) : UInt32 := (x &&& (y ||| z)) ||| (y &&& z)

def rotr (x n : UInt32) : UInt32 := (x >>> n) ||| (x <<< (32 - n))

def S0 (x : UInt32) : UInt32 := rotr x 2 ^^^ rotr x 13 ^^^ rotr x 22

def S1 (x : UInt32) : UInt32 := rotr x 6 ^^^ rotr x 11 ^^^ rotr x 25

def s0 (x : UInt32) : UInt32 := rotr x 7 ^^^ rotr x 18 ^^^ (x >>> 3)

def s1 (x : UInt32) : UInt32 := rotr x 17 ^^^ rotr x 19 ^^^ (x >>> 10)

/-- `RND`: what becomes of `d` and of `h`. -/
def rnd (a b c d e f g h k : UInt32) : UInt32 × UInt32 :=
  let t0 := h + S1 e + ch e f g + k
  let t1 := S0 a + maj a b c
  (d + t0, t0 + t1)

/-- `RNDr`: one round on the rotating state. -/
def rndr (S : Vector UInt32 8) (W : List UInt32) (i : Nat) : Vector UInt32 8 :=
  let dh := rnd S[(64 - i) % 8] S[(65 - i) % 8]
    S[(66 - i) % 8] S[(67 - i) % 8]
    S[(68 - i) % 8] S[(69 - i) % 8]
    S[(70 - i) % 8] S[(71 - i) % 8]
    (W.getD i 0 + sha256K.getD i 0)
  (S.set ((67 - i) % 8) dh.1).set ((71 - i) % 8) dh.2

/-- Two words of the schedule, at `i` and behind it. -/
def schedulePair (W : List UInt32) (i : Nat) : List UInt32 :=
  let W := W.set i
    (s1 (W.getD (i - 2) 0) + W.getD (i - 7) 0 + s0 (W.getD (i - 15) 0) + W.getD (i - 16) 0)
  W.set (i + 1)
    (s1 (W.getD (i - 1) 0) + W.getD (i - 6) 0 + s0 (W.getD (i - 14) 0) + W.getD (i - 15) 0)

end Sha2

def sha256Transform (state : Vector UInt32 8) (block : Vector UInt32 16) (swap : Bool) :
    Vector UInt32 8 :=
  let W := (if swap then block.toList.map swab32 else block.toList) ++ List.replicate 48 0
  let W := (List.range 24).foldl (fun W j => Sha2.schedulePair W (16 + 2 * j)) W
  let S := (List.range 64).foldl (fun S i => Sha2.rndr S W i) state
  .ofFn fun i => state[i] + S[i]

/-! ## Messages -/

/-- The tail of `sha256d_hash1`. -/
def sha256dHash1 : Vector UInt32 8 := #v[0x80000000, 0, 0, 0, 0, 0, 0, 0x00000100]

/-- `T` when `r` bytes of the message are left. -/
def sha256d.block (data : Bytes) (len r : Int) : Vector UInt32 16 :=
  let T : Bytes := .replicate 64 0
  let n := if 64 < r then 64 else if r < 0 then 0 else r.toNat
  let T := store T 0 (slice data (len - r).toNat n)
  let T := if 0 ≤ r ∧ r < 64 then store T r.toNat [0x80] else T
  let T : Vector UInt32 16 := .ofFn fun i => be32dec (slice T (4 * i) 4)
  if r < 56 then T.set 15 (.ofInt (8 * len)) else T

def sha256d.loop (data : Bytes) (len : Int) : Nat → Int → Vector UInt32 8 → Vector UInt32 8
  | 0, _, S => S
  | fuel + 1, r, S =>
      if -9 < r then
        sha256d.loop data len fuel (r - 64) (sha256Transform S (sha256d.block data len r) false)
      else S

/-- `len` is an `int`, and so is the number of bits. -/
def sha256d (data : Bytes) : Hash :=
  let len : Int := data.length
  let S := sha256d.loop data len (data.length / 64 + 2) len sha256H
  let T := sha256Transform sha256H (S ++ sha256dHash1) false
  Vector.ofFn fun i => (T.toList.flatMap be32enc).getD i 0

end AlphaMiner
