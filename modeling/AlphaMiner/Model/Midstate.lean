import AlphaMiner.Model.Sha256

/-!
# One header, many nonces (`sha2.c`)

A header of 80 bytes is two blocks of the first hash, and only the second one has the
nonce in it, as its word 3. `sha256d_preextend` and `sha256d_prehash` do what does not
depend on the nonce, and `sha256d_ms` the rest, in the array `W` that the next nonce
finds again. `S` is an array of 64 words that is the state of the first hash and the
schedule of the second, and in between keeps the words of `W` that are overwritten.
-/

namespace AlphaMiner

open Lib Sha2

/-! ## Arrays -/

/-- Words that are assigned one after the other, each with what it becomes under the words
of the array at that time. -/
abbrev Assignments := List (Nat × ((Nat → UInt32) → UInt32))

def assign (W : List UInt32) (l : Assignments) : List UInt32 :=
  l.foldl (fun W a => W.set a.1 (a.2 fun i => W.getD i 0)) W

/-- `S[i] = W[i]` for some words. -/
def copyWords (places : List Nat) (S W : List UInt32) : List UInt32 :=
  assign S (places.map fun i => (i, fun _ => W.getD i 0))

/-- `S[i]`. -/
def wordAt {n : Nat} (S : Vector UInt32 n) (i : Nat) : UInt32 := S.toList.getD i 0

/-- `S[i] = v`. -/
def setWord {n : Nat} (S : Vector UInt32 n) (i : Nat) (v : UInt32) : Vector UInt32 n :=
  S.setIfInBounds i v

/-- The 16 words at `data + off`. -/
def wordsAt (data : Vector UInt32 32) (off : Nat) : Vector UInt32 16 :=
  .ofFn fun i => wordAt data (off + i)

/-! ## A header -/

/-- The whole of `sha256d_hash1`. -/
def sha256dHash1Words : List UInt32 := List.replicate 8 0 ++ sha256dHash1.toList

def sha256d80Swap (data : Vector UInt32 32) : Vector UInt32 8 :=
  let S := sha256Transform sha256H (wordsAt data 0) false
  let S := sha256Transform S (wordsAt data 16) false
  (sha256Transform sha256H (S ++ sha256dHash1) false).map swab32

/-! ## Before the nonce is known -/

def sha256dPreextend.words : Assignments :=
  [(16, fun W => s1 (W 14) + W 9 + s0 (W 1) + W 0),
   (17, fun W => s1 (W 15) + W 10 + s0 (W 2) + W 1),
   (18, fun W => s1 (W 16) + W 11 + W 2),
   (19, fun W => s1 (W 17) + W 12 + s0 (W 4)),
   (20, fun W => W 13 + s0 (W 5) + W 4),
   (21, fun W => W 14 + s0 (W 6) + W 5),
   (22, fun W => W 15 + s0 (W 7) + W 6),
   (23, fun W => W 16 + s0 (W 8) + W 7),
   (24, fun W => W 17 + s0 (W 9) + W 8),
   (25, fun W => s0 (W 10) + W 9),
   (26, fun W => s0 (W 11) + W 10),
   (27, fun W => s0 (W 12) + W 11),
   (28, fun W => s0 (W 13) + W 12),
   (29, fun W => s0 (W 14) + W 13),
   (30, fun W => s0 (W 15) + W 14),
   (31, fun W => s0 (W 16) + W 15)]

def sha256dPreextend (W : List UInt32) : List UInt32 := assign W sha256dPreextend.words

def sha256dPrehash (S : Vector UInt32 8) (W : List UInt32) : Vector UInt32 8 :=
  (List.range 3).foldl (fun S i => rndr S W i) S

/-! ## With the nonce -/

/-- The words of `W` that are put back. -/
def sha256dMs.saved : List Nat := [18, 19, 20, 22, 23, 24, 30, 31]

def sha256dMs.extend : Assignments :=
  [(18, fun W => W 18 + s0 (W 3)),
   (19, fun W => W 19 + W 3),
   (20, fun W => W 20 + s1 (W 18)),
   (21, fun W => s1 (W 19)),
   (22, fun W => W 22 + s1 (W 20)),
   (23, fun W => W 23 + s1 (W 21)),
   (24, fun W => W 24 + s1 (W 22)),
   (25, fun W => s1 (W 23) + W 18),
   (26, fun W => s1 (W 24) + W 19),
   (27, fun W => s1 (W 25) + W 20),
   (28, fun W => s1 (W 26) + W 21),
   (29, fun W => s1 (W 27) + W 22),
   (30, fun W => W 30 + (s1 (W 28) + W 23)),
   (31, fun W => W 31 + (s1 (W 29) + W 24))]

/-- The schedule of the second hash, whose block is the first hash and `sha256d_hash1`. -/
def sha256dMs.hashExtend : Assignments :=
  let h i := sha256dHash1Words.getD i 0
  [(16, fun S => s1 (h 14) + h 9 + s0 (S 1) + S 0),
   (17, fun S => s1 (h 15) + h 10 + s0 (S 2) + S 1),
   (18, fun S => s1 (S 16) + h 11 + s0 (S 3) + S 2),
   (19, fun S => s1 (S 17) + h 12 + s0 (S 4) + S 3),
   (20, fun S => s1 (S 18) + h 13 + s0 (S 5) + S 4),
   (21, fun S => s1 (S 19) + h 14 + s0 (S 6) + S 5),
   (22, fun S => s1 (S 20) + h 15 + s0 (S 7) + S 6),
   (23, fun S => s1 (S 21) + S 16 + s0 (h 8) + S 7),
   (24, fun S => s1 (S 22) + S 17 + s0 (h 9) + h 8),
   (25, fun S => s1 (S 23) + S 18 + s0 (h 10) + h 9),
   (26, fun S => s1 (S 24) + S 19 + s0 (h 11) + h 10),
   (27, fun S => s1 (S 25) + S 20 + s0 (h 12) + h 11),
   (28, fun S => s1 (S 26) + S 21 + s0 (h 13) + h 12),
   (29, fun S => s1 (S 27) + S 22 + s0 (h 14) + h 13),
   (30, fun S => s1 (S 28) + S 23 + s0 (h 15) + h 14),
   (31, fun S => s1 (S 29) + S 24 + s0 (S 16) + h 15)]

/-- The four rounds at the end of the second hash, as far as its last word needs them. -/
def sha256dMs.finish (hash : Vector UInt32 8) (S : List UInt32) : Vector UInt32 8 :=
  let h := wordAt hash
  let k i := sha256K.getD i 0
  let hash := setWord hash 2 (h 2 + (h 6 + S1 (h 3) + ch (h 3) (h 4) (h 5) + S.getD 57 0 + k 57))
  let h := wordAt hash
  let hash := setWord hash 1 (h 1 + (h 5 + S1 (h 2) + ch (h 2) (h 3) (h 4) + S.getD 58 0 + k 58))
  let h := wordAt hash
  let hash := setWord hash 0 (h 0 + (h 4 + S1 (h 1) + ch (h 1) (h 2) (h 3) + S.getD 59 0 + k 59))
  let h := wordAt hash
  setWord hash 7 (h 7 + (h 3 + S1 (h 0) + ch (h 0) (h 1) (h 2) + S.getD 60 0 + k 60 +
    wordAt sha256H 7))

/-- `W` with the rest of its schedule. -/
def sha256dMs.schedule (W : List UInt32) : List UInt32 :=
  (List.range 16).foldl (fun W j => schedulePair W (32 + 2 * j)) (assign W sha256dMs.extend)

/-- The first hash, from the round with the nonce on. -/
def sha256dMs.firstHash (W : List UInt32) (midstate prehash : Vector UInt32 8) :
    Vector UInt32 8 :=
  let S := (List.range 61).foldl (fun S i => rndr S W (3 + i)) prehash
  .ofFn fun i => S.get i + midstate.get i

/-- The second hash of the words that `S` begins with. -/
def sha256dMs.secondHash (S : List UInt32) : Vector UInt32 8 :=
  let S := S.take 8 ++ sha256dHash1.toList ++ S.drop 16
  let S := assign S sha256dMs.hashExtend
  let S := (List.range 14).foldl (fun S j => schedulePair S (32 + 2 * j)) S
  let S := assign S [(60, fun S => s1 (S 58) + S 53 + s0 (S 45) + S 44)]
  sha256dMs.finish ((List.range 57).foldl (fun hash i => rndr hash S i) sha256H) S

/-- What `sha256d_ms` leaves in `hash` and in `W`. `S` comes with whatever it held. -/
def sha256dMs (S W : List UInt32) (midstate prehash : Vector UInt32 8) :
    Vector UInt32 8 × List UInt32 :=
  let S := copyWords sha256dMs.saved S W
  let W := sha256dMs.schedule W
  let S := (sha256dMs.firstHash W midstate prehash).toList ++ S.drop 8
  let W := copyWords sha256dMs.saved W S
  (sha256dMs.secondHash S, W)

/-! ## A run of nonces -/

/-- What `scanhash_sha256d` gives `sha256d_ms` besides `W`. -/
structure MsInput where
  midstate : Vector UInt32 8
  prehash : Vector UInt32 8

def MsInput.of (pdata : Vector UInt32 32) : MsInput :=
  let midstate := sha256Transform sha256H (wordsAt pdata 0) false
  { midstate := midstate, prehash := sha256dPrehash midstate (wordsAt pdata 16).toList }

/-- `data` before the first nonce, with whatever it held behind the header. -/
def msData (pdata : Vector UInt32 32) (rest : Vector UInt32 48) : List UInt32 :=
  sha256dPreextend ((wordsAt pdata 16).toList ++ rest.toList)

/-- One nonce: `data[3] = n`, and `sha256d_ms` with whatever its `S` holds. -/
structure MsCall where
  nonce : UInt32
  S : Vector UInt32 64

def MsInput.call (m : MsInput) (W : List UInt32) (c : MsCall) : Vector UInt32 8 × List UInt32 :=
  sha256dMs c.S.toList (W.set 3 c.nonce) m.midstate m.prehash

/-- `data` after some nonces. -/
def MsInput.run (m : MsInput) (W : List UInt32) (calls : List MsCall) : List UInt32 :=
  calls.foldl (fun W c => (m.call W c).2) W

end AlphaMiner
