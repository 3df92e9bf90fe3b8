import AlphaMiner.Lib.Sha256
import AlphaMiner.Model.Sha256
import Mathlib.Data.List.FinRange
import Mathlib.Tactic.IntervalCases

/-!
# `sha256d` is SHA-256 done twice

The standard shifts the eight working variables in every round, and the code lets
the place of the first one move down (`rotated`). After a round the variables
in their new places are the shifted ones (`rotated_rndr`), and after 64 rounds the
places are the old ones again.

`sha256d` counts down what is left of the message. A round with 64 bytes or more
takes a block of it; below that, the rounds that follow are the blocks of the
padding, one if the length fits behind the message and two if it does not. A
negative count stands for the second of these (`sha256d.loop_eq`).
-/

namespace AlphaMiner

open Lib

/-! ## Functions -/

theorem Sha2.ch_eq (x y z : UInt32) : Sha2.ch x y z = Sha256.ch x y z := by
  apply UInt32.toBitVec_inj.mp
  simp only [Sha2.ch, Sha256.ch, UInt32.toBitVec_xor, UInt32.toBitVec_and, UInt32.toBitVec_not]
  apply BitVec.eq_of_getLsbD_eq
  intro i hi
  simp only [BitVec.getLsbD_xor, BitVec.getLsbD_and, BitVec.getLsbD_not, hi, decide_true,
    Bool.true_and]
  cases x.toBitVec.getLsbD i <;> cases y.toBitVec.getLsbD i <;> cases z.toBitVec.getLsbD i <;> rfl

theorem Sha2.maj_eq (x y z : UInt32) : Sha2.maj x y z = Sha256.maj x y z := by
  apply UInt32.toBitVec_inj.mp
  simp only [Sha2.maj, Sha256.maj, UInt32.toBitVec_xor, UInt32.toBitVec_and, UInt32.toBitVec_or]
  apply BitVec.eq_of_getLsbD_eq
  intro i hi
  simp only [BitVec.getLsbD_xor, BitVec.getLsbD_and, BitVec.getLsbD_or]
  cases x.toBitVec.getLsbD i <;> cases y.toBitVec.getLsbD i <;> cases z.toBitVec.getLsbD i <;> rfl

theorem Sha2.S0_eq (x : UInt32) : Sha2.S0 x = Sha256.bigSigma0 x := rfl

theorem Sha2.S1_eq (x : UInt32) : Sha2.S1 x = Sha256.bigSigma1 x := rfl

theorem Sha2.s0_eq (x : UInt32) : Sha2.s0 x = Sha256.smallSigma0 x := rfl

theorem Sha2.s1_eq (x : UInt32) : Sha2.s1 x = Sha256.smallSigma1 x := rfl

/-! ## Rounds -/

/-- The working variables if the first of them is in place `p`. -/
def rotated (S : Vector UInt32 8) (p : Nat) : Sha256.Vars where
  a := S[p % 8]
  b := S[(p + 1) % 8]
  c := S[(p + 2) % 8]
  d := S[(p + 3) % 8]
  e := S[(p + 4) % 8]
  f := S[(p + 5) % 8]
  g := S[(p + 6) % 8]
  h := S[(p + 7) % 8]

/-- Two writes shift all variables, if the places move along. -/
theorem rotated_set (S : Vector UInt32 8) (d h : UInt32) {p : Nat} (hp : p < 8) :
    rotated ((S.set ((p + 3) % 8) d).set ((p + 7) % 8) h) (p + 7) =
      { a := h, b := (rotated S p).a, c := (rotated S p).b, d := (rotated S p).c
        e := d, f := (rotated S p).e, g := (rotated S p).f, h := (rotated S p).g } := by
  interval_cases p <;> simp [rotated]

theorem rotated_congr (S : Vector UInt32 8) {p q : Nat} (h : p % 8 = q % 8) :
    rotated S p = rotated S q := by
  have hplace : ∀ k, (p + k) % 8 = (q + k) % 8 := by omega
  simp only [rotated, h, hplace]

theorem rotated_rndr (S : Vector UInt32 8) (W : List UInt32) {i : Nat} (hi : i < 64) :
    rotated (Sha2.rndr S W i) (64 - (i + 1)) =
      Sha256.round (rotated S (64 - i)) (sha256K.getD i 0, W.getD i 0) := by
  obtain ⟨p, hp, hplace⟩ : ∃ p < 8, ∀ k ≤ 7, (64 + k - i) % 8 = (p + k) % 8 :=
    ⟨(64 - i) % 8, Nat.mod_lt _ (by decide), by omega⟩
  have hfirst : (64 - i) % 8 = p % 8 := hplace 0 (by decide)
  rw [rotated_congr S hfirst, rotated_congr _ (show (64 - (i + 1)) % 8 = (p + 7) % 8 by omega)]
  have h1 : (65 - i) % 8 = (p + 1) % 8 := hplace 1 (by decide)
  have h2 : (66 - i) % 8 = (p + 2) % 8 := hplace 2 (by decide)
  have h3 : (67 - i) % 8 = (p + 3) % 8 := hplace 3 (by decide)
  have h4 : (68 - i) % 8 = (p + 4) % 8 := hplace 4 (by decide)
  have h5 : (69 - i) % 8 = (p + 5) % 8 := hplace 5 (by decide)
  have h6 : (70 - i) % 8 = (p + 6) % 8 := hplace 6 (by decide)
  have h7 : (71 - i) % 8 = (p + 7) % 8 := hplace 7 (by decide)
  simp only [Sha2.rndr, hfirst, h1, h2, h3, h4, h5, h6, h7]
  rw [rotated_set S _ _ hp]
  have hadd : ∀ x y z k w : UInt32, x + y + z + (w + k) = x + y + z + k + w := by
    intro x y z k w
    rw [UInt32.add_comm w k, ← UInt32.add_assoc]
  simp only [Sha256.round, Sha2.rnd, rotated, Sha2.S0_eq, Sha2.S1_eq, Sha2.ch_eq, Sha2.maj_eq, hadd]

/-- The rounds one after the other. -/
theorem rotated_foldl (S : Vector UInt32 8) (W : List UInt32) (hW : W.length = 64) {n : Nat}
    (hn : n ≤ 64) :
    rotated ((List.range n).foldl (fun S i => Sha2.rndr S W i) S) (64 - n) =
      ((Sha256.constants.zip W).take n).foldl Sha256.round (rotated S 64) := by
  induction n with
  | zero => rfl
  | succ n ih =>
      have hlen : (Sha256.constants.zip W).length = 64 := by
        rw [List.length_zip, hW]
        rfl
      have hnext : (Sha256.constants.zip W).take (n + 1) =
          (Sha256.constants.zip W).take n ++ [(sha256K.getD n 0, W.getD n 0)] := by
        rw [List.take_succ_eq_append_getElem (by omega), List.getElem_zip,
          List.getD_eq_getElem?_getD, List.getD_eq_getElem?_getD,
          List.getElem?_eq_getElem (show n < W.length by omega),
          List.getElem?_eq_getElem (show n < sha256K.length from hn)]
        rfl
      rw [List.range_succ, List.foldl_append, hnext, List.foldl_append, ← ih (by omega)]
      exact rotated_rndr _ W (by omega)

/-! ## The schedule -/

theorem take_set {W : List UInt32} {t : Nat} (ht : t < W.length) (v : UInt32) :
    (W.set t v).take (t + 1) = W.take t ++ [v] := by
  rw [List.take_succ_eq_append_getElem (by simpa using ht), List.getElem_set_self,
    List.take_set_of_le (Nat.le_refl t)]

/-- Two words more of the schedule, when the words in front of them are there. -/
theorem take_schedulePair {W : List UInt32} {t : Nat} (hmin : 16 ≤ t) (hlen : t + 2 ≤ W.length) :
    (Sha2.schedulePair W t).take (t + 2) = Sha256.expand 2 (W.take t) := by
  have hfirst := Sha256.nextWord_take W hmin (by omega)
  have htake := take_set (show t < W.length by omega) (Sha256.nextWord (W.take t))
  have hsecond := Sha256.nextWord_take (W.set t (Sha256.nextWord (W.take t))) (t := t + 1)
    (by omega) (by rw [List.length_set]; omega)
  rw [htake, show t + 1 - 2 = t - 1 by omega, show t + 1 - 7 = t - 6 by omega,
    show t + 1 - 15 = t - 14 by omega, show t + 1 - 16 = t - 15 by omega] at hsecond
  rw [Sha256.expand, Sha256.expand, Sha256.expand, hsecond, hfirst, Sha2.schedulePair]
  simp only [Sha2.s0_eq, Sha2.s1_eq, ← hfirst]
  rw [take_set (by rw [List.length_set]; omega), htake]

theorem length_schedulePair (W : List UInt32) (t : Nat) :
    (Sha2.schedulePair W t).length = W.length := by
  simp [Sha2.schedulePair]

/-- The loop continues the schedule that the array begins with. -/
theorem foldl_schedulePair {W : List UInt32} (hW : W.length = 64) {a : Nat} (ha : 16 ≤ a) {n : Nat}
    (hn : a + 2 * n ≤ 64) :
    ((List.range n).foldl (fun W j => Sha2.schedulePair W (a + 2 * j)) W).length = 64 ∧
      ((List.range n).foldl (fun W j => Sha2.schedulePair W (a + 2 * j)) W).take (a + 2 * n) =
        Sha256.expand (2 * n) (W.take a) := by
  induction n with
  | zero => exact ⟨hW, rfl⟩
  | succ n ih =>
      obtain ⟨hlen, hfront⟩ := ih (by omega)
      rw [List.range_succ, List.foldl_append, List.foldl_cons, List.foldl_nil]
      refine ⟨by rw [length_schedulePair, hlen], ?_⟩
      rw [Nat.mul_succ, ← Nat.add_assoc, take_schedulePair (by omega) (by omega), hfront,
        Sha256.expand_add]

/-! ## The transformation -/

/-- The working variables in order. -/
def toVars (S : Vector UInt32 8) : Sha256.Vars := rotated S 0

theorem toList_toVars (S : Vector UInt32 8) : (toVars S).toList = S.toList := by
  apply List.ext_getElem (by rw [Vector.length_toList]; rfl)
  intro i hi _
  have hi : i < 8 := hi
  rw [Vector.getElem_toList]
  interval_cases i <;> rfl

theorem toVars_add {S T U : Vector UInt32 8} (h : ∀ (i : Nat) (hi : i < 8), U[i] = S[i] + T[i]) :
    toVars U = (toVars S).add (toVars T) := by
  simp only [toVars, rotated, h, Sha256.Vars.add]

/-- Before the first round and after the last one the variables are in order. -/
theorem rotated_ends (S : Vector UInt32 8) : rotated S 64 = toVars S ∧ rotated S 0 = toVars S :=
  ⟨rfl, rfl⟩

theorem sha256Transform_schedule (state : Vector UInt32 8) (block : Vector UInt32 16) :
    sha256Transform state block false = .ofFn fun i => state.get i +
      ((List.range 64).foldl (fun S i => Sha2.rndr S (Sha256.schedule block.toList) i) state).get i := by
  obtain ⟨hlen, hfront⟩ := @foldl_schedulePair (block.toList ++ List.replicate 48 0) (by simp) 16
    (Nat.le_refl 16) 24 (Nat.le_refl 64)
  rw [List.take_of_length_le (Nat.le_of_eq hlen), List.take_left' block.length_toList] at hfront
  simp only [sha256Transform, Bool.false_eq_true, if_false, hfront]
  rfl

theorem toVars_sha256Transform (state : Vector UInt32 8) (block : Vector UInt32 16) :
    toVars (sha256Transform state block false) =
      Sha256.compress (toVars state) block.toList := by
  have hlen : (Sha256.schedule block.toList).length = 64 := by
    rw [Sha256.schedule, Sha256.length_expand, Vector.length_toList]
  have hrounds := rotated_foldl state _ hlen (Nat.le_refl 64)
  rw [List.take_of_length_le (by rw [List.length_zip, hlen]; decide), Nat.sub_self,
    (rotated_ends _).1, (rotated_ends _).2] at hrounds
  rw [Sha256.compress, ← hrounds, sha256Transform_schedule]
  apply toVars_add
  intro i hi
  rw [Vector.getElem_ofFn]
  rfl

/-! ## The message -/

/-- The bytes of `T` when `r` bytes of the message are left. -/
def messageBytes (data : Bytes) (len r : Int) : Bytes :=
  let n := if 64 < r then 64 else if r < 0 then 0 else r.toNat
  let T := store (.replicate 64 0) 0 (slice data (len - r).toNat n)
  if 0 ≤ r ∧ r < 64 then store T r.toNat [0x80] else T

/-- The number of bits of a message, as it is written into `T`. -/
theorem ofInt_bits (len : Nat) : UInt32.ofInt (8 * (len : Int)) = UInt32.ofNat (8 * len) := by
  apply UInt32.toNat_inj.mp
  rw [toNat_ofInt, UInt32.toNat_ofNat']
  omega

theorem sha256d.toList_block {data : Bytes} {r : Int}
    (hlen : (messageBytes data data.length r).length = 64) :
    (sha256d.block data data.length r).toList =
      if r < 56 then
        (Sha256.blockWords (messageBytes data data.length r)).set 15 (.ofNat (8 * data.length))
      else Sha256.blockWords (messageBytes data data.length r) := by
  have hwords : (Vector.ofFn fun i : Fin 16 =>
      be32dec (slice (messageBytes data data.length r) (4 * i) 4)).toList =
        Sha256.blockWords (messageBytes data data.length r) := by
    rw [@Sha256.blockWords_slices 16 _ hlen, Vector.toList_ofFn, List.ofFn_eq_map]
  rw [← hwords, ← ofInt_bits]
  by_cases hfits : r < 56
  · rw [if_pos hfits, sha256d.block, if_pos hfits, Vector.toList_set]
    rfl
  · rw [if_neg hfits, sha256d.block, if_neg hfits]
    rfl

theorem store_cleared (b : Bytes) :
    store (List.replicate 64 0) 0 b = b ++ List.replicate (64 - b.length) 0 := by
  rw [store, List.take_zero, List.nil_append, Nat.zero_add, List.drop_replicate]

theorem store_marker {b : Bytes} (hb : b.length < 64) :
    store (b ++ List.replicate (64 - b.length) 0) b.length [0x80] =
      b ++ [0x80] ++ List.replicate (63 - b.length) 0 := by
  rw [show 64 - b.length = 1 + (63 - b.length) by omega, ← List.replicate_append_replicate,
    ← List.append_assoc]
  exact store_middle rfl rfl

section Blocks

variable {done rest : Bytes}

/-- How much of the message goes into a block, and where it is. -/
theorem slice_rest (n : Nat) :
    slice (done ++ rest) (((done ++ rest).length : Int) - rest.length).toNat n = rest.take n := by
  have hoff : (((done ++ rest).length : Int) - rest.length).toNat = done.length := by
    rw [List.length_append]
    omega
  rw [hoff, slice, List.drop_left]

/-- A whole block. -/
theorem messageBytes_whole (h : 64 ≤ rest.length) :
    messageBytes (done ++ rest) (done ++ rest).length rest.length = rest.take 64 := by
  have hcount : (if 64 < (rest.length : Int) then 64
      else if (rest.length : Int) < 0 then 0 else (rest.length : Int).toNat) = 64 := by
    split
    · rfl
    · rw [if_neg (by omega)]
      omega
  have htake : (rest.take 64).length = 64 := by
    rw [List.length_take]
    omega
  rw [messageBytes, if_neg (by omega), hcount, slice_rest, store_cleared, htake]
  exact List.append_nil _

/-- The end of the message. -/
theorem messageBytes_end (h : rest.length < 64) :
    messageBytes (done ++ rest) (done ++ rest).length rest.length =
      rest ++ [0x80] ++ List.replicate (63 - rest.length) 0 := by
  have hcount : (if 64 < (rest.length : Int) then 64
      else if (rest.length : Int) < 0 then 0 else (rest.length : Int).toNat) = rest.length := by
    rw [if_neg (by omega), if_neg (by omega), Int.toNat_natCast]
  rw [messageBytes, if_pos (by omega), hcount, slice_rest, List.take_length, Int.toNat_natCast,
    store_cleared, store_marker h]

/-- Nothing of it. -/
theorem messageBytes_neg (data : Bytes) (len : Int) {r : Int} (h : r < 0) :
    messageBytes data len r = List.replicate 64 0 := by
  rw [messageBytes, if_neg (by omega), if_neg (by omega), if_pos h, slice, List.take_zero,
    store_cleared]
  rfl

end Blocks

/-! ## The blocks of a message -/

theorem sha256d.loop_stop (data : Bytes) (len : Int) (fuel : Nat) {r : Int} (hr : r ≤ -9)
    (S : Vector UInt32 8) : sha256d.loop data len fuel r S = S := by
  cases fuel with
  | zero => rfl
  | succ fuel => rw [sha256d.loop, if_neg (by omega)]

/-- A block that holds the length is the last one. -/
theorem sha256d.loop_last {data front : Bytes} {fuel : Nat} {r : Int} (hmin : -9 < r)
    (hmax : r < 56) (hlen : data.length < 2 ^ 28) (hfront : front.length = 56)
    (hT : messageBytes data data.length r = front ++ List.replicate 8 0) (S : Vector UInt32 8) :
    toVars (sha256d.loop data data.length (fuel + 1) r S) =
      Sha256.compress (toVars S)
        (Sha256.blockWords (front ++ Sha256.be64enc (8 * data.length))) := by
  have hsize : (messageBytes data data.length r).length = 64 := by simp [hT, hfront]
  rw [sha256d.loop, if_pos hmin, sha256d.loop_stop _ _ _ (by omega), toVars_sha256Transform,
    sha256d.toList_block hsize, if_pos hmax, hT, Sha256.blockWords_set hfront,
    Sha256.be64enc_of_lt (by omega)]

theorem sha256d.loop_eq (fuel : Nat) : ∀ (done rest : Bytes) (S : Vector UInt32 8),
    (done ++ rest).length < 2 ^ 28 → done.length % 64 = 0 → rest.length / 64 + 2 ≤ fuel →
    toVars (sha256d.loop (done ++ rest) (done ++ rest).length fuel rest.length S) =
      Sha256.hashBlocks ((rest ++ Sha256.padding (done ++ rest).length).length / 64)
        (rest ++ Sha256.padding (done ++ rest).length) (toVars S) := by
  induction fuel with
  | zero =>
      intro done rest S _ _ hfuel
      omega
  | succ fuel ih =>
      intro done rest S hlen hdone hfuel
      by_cases hwhole : 64 ≤ rest.length
      · have htake : (rest.take 64).length = 64 := by
          rw [List.length_take]
          omega
        have hdrop : (rest.drop 64).length = rest.length - 64 := List.length_drop
        have hdata : done ++ rest.take 64 ++ rest.drop 64 = done ++ rest := by
          rw [List.append_assoc, List.take_append_drop]
        have hnext := ih (done ++ rest.take 64) (rest.drop 64)
          (sha256Transform S (sha256d.block (done ++ rest) (done ++ rest).length rest.length) false)
          (by rwa [hdata]) (by rw [List.length_append, htake]; omega) (by rw [hdrop]; omega)
        have hsize : (messageBytes (done ++ rest) (done ++ rest).length rest.length).length = 64 := by
          rw [messageBytes_whole hwhole, htake]
        have hleft : ((rest.length - 64 : Nat) : Int) = (rest.length : Int) - 64 := by omega
        rw [hdata, toVars_sha256Transform, sha256d.toList_block hsize, if_neg (by omega),
          messageBytes_whole hwhole, hdrop, hleft] at hnext
        rw [sha256d.loop, if_pos (by omega), hnext, ← Sha256.hashBlocks_append htake,
          ← List.append_assoc, List.take_append_drop]
      have hmod : (done ++ rest).length % 64 = rest.length := by
        rw [List.length_append]
        omega
      by_cases hfits : rest.length < 56
      · have hfront : (rest ++ [0x80] ++ List.replicate (55 - rest.length) 0).length = 56 := by
          simp only [List.length_append, List.length_replicate, List.length_singleton]
          omega
        have hT : messageBytes (done ++ rest) (done ++ rest).length rest.length =
            rest ++ [0x80] ++ List.replicate (55 - rest.length) 0 ++ List.replicate 8 0 := by
          rw [messageBytes_end (by omega), List.append_assoc _ _ (List.replicate 8 0),
            List.replicate_append_replicate,
            show 55 - rest.length + 8 = 63 - rest.length by omega]
        rw [sha256d.loop_last (by omega) (by omega) hlen hfront hT,
          Sha256.padding_one (by omega), hmod, ← List.append_assoc, ← List.append_assoc,
          Sha256.hashBlocks_one (by rw [List.length_append, hfront]; rfl)]
      · have hmarked : (rest ++ [0x80] ++ List.replicate (63 - rest.length) 0).length = 64 := by
          simp only [List.length_append, List.length_replicate, List.length_singleton]
          omega
        have hT : messageBytes (done ++ rest) (done ++ rest).length ((rest.length : Int) - 64) =
            List.replicate 56 0 ++ List.replicate 8 0 := by
          rw [messageBytes_neg _ _ (by omega)]
          rfl
        have hsize : (messageBytes (done ++ rest) (done ++ rest).length rest.length).length = 64 := by
          rw [messageBytes_end (by omega), hmarked]
        have hblocks : rest ++ Sha256.padding (done ++ rest).length =
            rest ++ [0x80] ++ List.replicate (63 - rest.length) 0 ++
              (List.replicate 56 0 ++ Sha256.be64enc (8 * (done ++ rest).length)) := by
          rw [Sha256.padding_two (by omega), hmod]
          simp only [List.append_assoc]
        obtain ⟨fuel, rfl⟩ := Nat.exists_eq_add_one_of_ne_zero (show fuel ≠ 0 by omega)
        rw [sha256d.loop, if_pos (by omega),
          sha256d.loop_last (by omega) (by omega) hlen (List.length_replicate) hT,
          toVars_sha256Transform, sha256d.toList_block hsize, if_neg (by omega),
          messageBytes_end (by omega), hblocks, Sha256.hashBlocks_append hmarked,
          Sha256.hashBlocks_one (by rw [List.length_append, List.length_replicate]; rfl)]

/-- The first hash. -/
theorem sha256d.loop_sha256 {data : Bytes} (hlen : data.length < 2 ^ 28) :
    (sha256d.loop data data.length (data.length / 64 + 2) data.length sha256H).toList.flatMap
      be32enc = Sha256.sha256 data := by
  have h := sha256d.loop_eq _ [] data sha256H hlen rfl (Nat.le_refl _)
  rw [List.nil_append] at h
  rw [← toList_toVars, h]
  rfl

/-- The second one has a block of its own. -/
theorem sha256Transform_sha256 (S : Vector UInt32 8) :
    (sha256Transform sha256H (S ++ sha256dHash1) false).toList.flatMap be32enc =
      Sha256.sha256 (S.toList.flatMap be32enc) := by
  have hlen : (S.toList.flatMap be32enc).length = 32 := by
    rw [length_flatMap_const length_be32enc, Vector.length_toList]
  have hpad : Sha256.padding 32 = sha256dHash1.toList.flatMap be32enc := by decide
  rw [Sha256.sha256, hlen, hpad, ← List.flatMap_append, ← Vector.toList_append]
  rw [Sha256.hashBlocks_one, Sha256.blockWords_flatMap, ← toList_toVars, toVars_sha256Transform]
  · rfl
  · rw [length_flatMap_const length_be32enc, Vector.length_toList]

/-- The hash of the hash. -/
theorem sha256d_eq {data : Bytes} (hlen : data.length < 2 ^ 28) :
    (sha256d data).toList = Sha256.sha256 (Sha256.sha256 data) := by
  have hbytes : ∀ T : Vector UInt32 8,
      (Vector.ofFn fun i : Fin 32 => (T.toList.flatMap be32enc).getD i 0).toList =
        T.toList.flatMap be32enc := by
    intro T
    have hT : (T.toList.flatMap be32enc).length = 32 := by
      rw [length_flatMap_const length_be32enc, Vector.length_toList]
    rw [Vector.toList_ofFn]
    apply List.ext_getElem (by rw [List.length_ofFn, hT])
    intro i _ hi
    rw [List.getElem_ofFn, List.getD_eq_getElem?_getD, List.getElem?_eq_getElem hi]
    rfl
  rw [sha256d, hbytes, sha256Transform_sha256, sha256d.loop_sha256 hlen]

theorem sha256d_eq_sample :
    ([97, 98, 99] : Bytes).length < 2 ^ 28 ∧
      (sha256d [97, 98, 99]).toList = Sha256.sha256 (Sha256.sha256 [97, 98, 99]) :=
  ⟨by decide, sha256d_eq (by decide)⟩

end AlphaMiner
