import AlphaMiner.Model.Midstate
import AlphaMiner.Proofs.Sha256

/-!
# The midstate path is the plain double hash

A word of a schedule follows from four words in front of it (`IsNext`). An array in
which every word from 16 on does is the schedule of the block that it begins with,
however its words were computed, so what has to be seen of `sha256d_preextend` and
`sha256d_ms` is one equation a word. The terms that are left out are the zeros of the
padding, and the equations of the words that `sha256d_ms` adds to are split between the
two.

`W` is read and written by every call. What a call needs of it are the words that the
nonce does not enter (`Prepared`), and it leaves them as they were.
-/

namespace AlphaMiner

open Lib Sha2

/-! ## Arrays -/

theorem getD_set (W : List UInt32) (i j : Nat) (v : UInt32) :
    (W.set i v).getD j 0 = if i = j ∧ i < W.length then v else W.getD j 0 := by
  rw [List.getD_eq_getElem?_getD, List.getD_eq_getElem?_getD, List.getElem?_set]
  by_cases hi : i = j
  · subst hi
    by_cases hlen : i < W.length
    · simp [hlen]
    · simp [hlen]
  · simp [hi]

theorem wordAt_eq {n : Nat} (S : Vector UInt32 n) {i : Nat} (hi : i < n) : wordAt S i = S[i] := by
  rw [wordAt, List.getD_eq_getElem?_getD, List.getElem?_eq_getElem (by simpa using hi),
    Option.getD_some, Vector.getElem_toList]

theorem wordAt_ofFn {n : Nat} (f : Fin n → UInt32) {i : Nat} (hi : i < n) :
    wordAt (.ofFn f) i = f ⟨i, hi⟩ := by
  rw [wordAt_eq _ hi, Vector.getElem_ofFn]

theorem wordAt_map {n : Nat} (f : UInt32 → UInt32) (S : Vector UInt32 n) {i : Nat} (hi : i < n) :
    wordAt (S.map f) i = f (wordAt S i) := by
  rw [wordAt_eq _ hi, wordAt_eq _ hi, Vector.getElem_map]

theorem get_eq_wordAt {n : Nat} (S : Vector UInt32 n) (i : Fin n) : S.get i = wordAt S i :=
  (wordAt_eq S i.isLt).symm

theorem wordAt_setWord {n : Nat} (S : Vector UInt32 n) (i j : Nat) (v : UInt32) :
    wordAt (setWord S i v) j = if i = j ∧ i < n then v else wordAt S j := by
  rw [wordAt, setWord, Vector.toList_setIfInBounds, getD_set, Vector.length_toList, wordAt]

theorem wordAt_setWord_self {n : Nat} (S : Vector UInt32 n) {i : Nat} (hi : i < n) (v : UInt32) :
    wordAt (setWord S i v) i = v := by
  rw [wordAt_setWord, if_pos ⟨rfl, hi⟩]

theorem wordAt_setWord_ne {n : Nat} (S : Vector UInt32 n) {i j : Nat} (h : i ≠ j) (v : UInt32) :
    wordAt (setWord S i v) j = wordAt S j := by
  rw [wordAt_setWord, if_neg fun hij => h hij.1]

theorem length_assign (l : Assignments) : ∀ W : List UInt32, (assign W l).length = W.length := by
  induction l with
  | nil => exact fun _ => rfl
  | cons a l ih => exact fun W => (ih _).trans List.length_set

/-- Words that are not assigned. -/
theorem getD_assign_other {j : Nat} {l : Assignments} (hj : ∀ a ∈ l, a.1 ≠ j) :
    ∀ W : List UInt32, (assign W l).getD j 0 = W.getD j 0 := by
  induction l with
  | nil => exact fun _ => rfl
  | cons a l ih =>
      intro W
      have hrest := ih (fun b hb => hj b (List.mem_cons_of_mem a hb))
        (W.set a.1 (a.2 fun i => W.getD i 0))
      rw [getD_set, if_neg fun h => hj a List.mem_cons_self h.1] at hrest
      exact hrest

/-- Words that are assigned from the front on: what is in front of a word is new when it
is assigned, and what is behind is old. -/
theorem getD_assign {l : Assignments} (hsorted : (l.map Prod.fst).Pairwise (· < ·)) :
    ∀ {W : List UInt32}, (∀ a ∈ l, a.1 < W.length) → ∀ a ∈ l,
      (assign W l).getD a.1 0 =
        a.2 fun i => if i < a.1 then (assign W l).getD i 0 else W.getD i 0 := by
  induction l with
  | nil => exact fun _ a ha => absurd ha List.not_mem_nil
  | cons b l ih =>
      intro W hlen a ha
      obtain ⟨hfirst, hsorted⟩ := List.pairwise_cons.mp hsorted
      have hbehind : ∀ c ∈ l, b.1 < c.1 := fun c hc => hfirst c.1 (List.mem_map_of_mem hc)
      have hfront : ∀ i ≤ b.1, (assign W (b :: l)).getD i 0 =
          (W.set b.1 (b.2 fun i => W.getD i 0)).getD i 0 := fun i hi =>
        getD_assign_other (fun c hc => Nat.ne_of_gt (Nat.lt_of_le_of_lt hi (hbehind c hc))) _
      rcases List.mem_cons.mp ha with rfl | ha
      · rw [hfront a.1 (Nat.le_refl _), getD_set, if_pos ⟨rfl, hlen a List.mem_cons_self⟩]
        refine congrArg a.2 (funext fun i => ?_)
        split
        · next hi => rw [hfront i (Nat.le_of_lt hi), getD_set, if_neg (by omega)]
        · rfl
      · have hnext := ih hsorted (W := W.set b.1 (b.2 fun i => W.getD i 0))
          (fun c hc => by
            rw [List.length_set]
            exact hlen c (List.mem_cons_of_mem b hc)) a ha
        refine hnext.trans (congrArg a.2 (funext fun i => ?_))
        split
        · rfl
        · rw [getD_set, if_neg fun h => by
            have := hbehind a ha
            omega]

theorem place_lt {l : Assignments} {n : Nat} (h : ∀ i ∈ l.map Prod.fst, i < n) {W : List UInt32}
    (hW : n ≤ W.length) : ∀ a ∈ l, a.1 < W.length := fun a ha =>
  Nat.lt_of_lt_of_le (h a.1 (List.mem_map_of_mem ha)) hW

theorem getD_copyWords {places : List Nat} (hsorted : places.Pairwise (· < ·)) {S W : List UInt32}
    (hlen : ∀ i ∈ places, i < S.length) (j : Nat) :
    (copyWords places S W).getD j 0 = if j ∈ places then W.getD j 0 else S.getD j 0 := by
  rw [copyWords]
  by_cases hj : j ∈ places
  · have hat := getD_assign (l := places.map fun i => (i, fun _ => W.getD i 0))
      (by rw [List.map_map]; simpa [Function.comp_def] using hsorted) (W := S) (by simpa using hlen)
      (j, fun _ => W.getD j 0) (List.mem_map_of_mem hj)
    rw [if_pos hj]
    exact hat
  · rw [if_neg hj]
    refine getD_assign_other (fun a ha => ?_) S
    obtain ⟨i, hi, rfl⟩ := List.mem_map.mp ha
    exact fun h => hj (h ▸ hi)

theorem take_congr {V W : List UInt32} {n : Nat} (hV : n ≤ V.length) (hW : n ≤ W.length)
    (h : ∀ i < n, V.getD i 0 = W.getD i 0) : V.take n = W.take n := by
  apply List.ext_getElem (by simp [hV, hW])
  intro i hi _
  have hi : i < n := by
    rw [List.length_take] at hi
    omega
  have hat := h i hi
  rw [List.getD_eq_getElem?_getD, List.getD_eq_getElem?_getD,
    List.getElem?_eq_getElem (by omega), List.getElem?_eq_getElem (by omega)] at hat
  rw [List.getElem_take, List.getElem_take]
  exact hat

theorem getD_of_take {V W : List UInt32} {n i : Nat} (h : V.take n = W.take n) (hi : i < n) :
    V.getD i 0 = W.getD i 0 := by
  rw [List.getD_eq_getElem?_getD, List.getD_eq_getElem?_getD, ← List.getElem?_take_of_lt hi, h,
    List.getElem?_take_of_lt hi]

/-! ## Schedules -/

/-- A word of a schedule, from the words in front of it. -/
def IsNext (w : List UInt32) (t : Nat) : Prop :=
  w.getD t 0 = s1 (w.getD (t - 2) 0) + w.getD (t - 7) 0 + s0 (w.getD (t - 15) 0) +
    w.getD (t - 16) 0

theorem take_of_isNext {w : List UInt32} {a n : Nat} (ha : 16 ≤ a) (hlen : a + n ≤ w.length)
    (h : ∀ t, a ≤ t → t < a + n → IsNext w t) :
    w.take (a + n) = Sha256.expand n (w.take a) := by
  refine Sha256.take_eq_expand hlen fun t hmin hmax => ?_
  rw [Sha256.nextWord_take w (by omega) (by omega)]
  exact h t hmin hmax

/-! ## The words of the first hash -/

/-- The words of `W` that are there again behind a call. -/
def restoredWords : List Nat := List.range 21 ++ [22, 23, 24, 30, 31]

/-- Those of them that the nonce does not enter. -/
def keptWords : List Nat := restoredWords.erase 3

/-- What `sha256d_preextend` assigns, in terms of what is there then. -/
theorem getD_preextend {W : List UInt32} (hlen : 32 ≤ W.length) :
    ∀ a ∈ sha256dPreextend.words,
      (sha256dPreextend W).getD a.1 0 = a.2 fun i => (sha256dPreextend W).getD i 0 := by
  have h := getD_assign (l := sha256dPreextend.words) (by decide) (W := W)
    (place_lt (by decide) hlen)
  simpa [sha256dPreextend.words, sha256dPreextend] using h

/-- The equations of a schedule hold for the words that `sha256d_ms` completes. -/
theorem extend_isNext {D W : List UInt32} (hD : 32 ≤ D.length) (hW : 32 ≤ W.length)
    (hzero : ∀ i, 5 ≤ i → i < 15 → W.getD i 0 = 0)
    (hkept : ∀ i ∈ keptWords, W.getD i 0 = (sha256dPreextend D).getD i 0) :
    ∀ t, 16 ≤ t → t < 32 → IsNext (assign W sha256dMs.extend) t := by
  have hpre := getD_preextend hD
  have hext := getD_assign (l := sha256dMs.extend) (by decide) (W := W)
    (place_lt (by decide) hW)
  have hfront : ∀ i < 18, (assign W sha256dMs.extend).getD i 0 = W.getD i 0 := fun i hi =>
    getD_assign_other (by simp [sha256dMs.extend]; omega) W
  have hold : ∀ i ∈ keptWords.take 17, (sha256dPreextend D).getD i 0 =
      (assign W sha256dMs.extend).getD i 0 := fun i hi => by
    have hsmall : ∀ i ∈ keptWords.take 17, i < 18 := by decide
    rw [hfront i (hsmall i hi), hkept i (List.mem_of_mem_take hi)]
  have hz : ∀ i, 5 ≤ i → i < 15 → (assign W sha256dMs.extend).getD i 0 = 0 := fun i hmin hmax => by
    rw [hfront i (by omega), hzero i hmin hmax]
  generalize sha256dPreextend D = P at hkept hpre hold
  generalize assign W sha256dMs.extend = V at hext hold hz hfront ⊢
  simp only [sha256dPreextend.words, List.forall_mem_cons] at hpre
  simp only [sha256dMs.extend, List.forall_mem_cons, Nat.reduceLT, if_true, if_false] at hext
  obtain ⟨h16, h17, h18, h19, h20, -, h22, h23, h24, -, -, -, -, -, h30, h31, -⟩ := hpre
  obtain ⟨e18, e19, e20, e21, e22, e23, e24, e25, e26, e27, e28, e29, e30, e31, -⟩ := hext
  -- the old words in terms of the new array
  simp (disch := decide) only [hold] at h16 h17 h18 h19 h20 h22 h23 h24 h30 h31
  rw [hkept 18 (by decide), h18] at e18
  rw [hkept 19 (by decide), h19] at e19
  rw [hkept 20 (by decide), h20] at e20
  rw [hkept 22 (by decide), h22] at e22
  rw [hkept 23 (by decide), h23] at e23
  rw [hkept 24 (by decide), h24] at e24
  rw [hkept 30 (by decide), h30] at e30
  rw [hkept 31 (by decide), h31] at e31
  have hs0 : s0 0 = 0 := by decide
  have hs1 : s1 0 = 0 := by decide
  -- the padding drops out
  simp (disch := decide) only [hz, hs0, hs1, UInt32.add_zero, UInt32.zero_add]
    at h16 h17 e18 e19 e20 e22 e23 e24 e30
  intro t hmin hmax
  interval_cases t
  all_goals
    simp (disch := decide) only [IsNext, Nat.reduceSub, hz, hs0, hs1, UInt32.add_zero,
      UInt32.zero_add]
  · rw [h16]
  · rw [h17]
  · rw [e18]
    ac_rfl
  · rw [e19]
  · rw [e20]
    ac_rfl
  · rw [e21]
  · rw [e22]
    ac_rfl
  · rw [e23]
    ac_rfl
  · rw [e24]
    ac_rfl
  · rw [e25]
  · rw [e26]
  · rw [e27]
  · rw [e28]
  · rw [e29]
  · rw [e30]
    ac_rfl
  · rw [e31]
    ac_rfl

/-- The array of the first hash is the schedule of its block. -/
theorem schedule_eq {W : List UInt32} (hW : W.length = 64)
    (hnext : ∀ t, 16 ≤ t → t < 32 → IsNext (assign W sha256dMs.extend) t) :
    sha256dMs.schedule W = Sha256.schedule (W.take 16) := by
  have hlen : (assign W sha256dMs.extend).length = 64 := by rw [length_assign, hW]
  have hfront : (assign W sha256dMs.extend).take 16 = W.take 16 :=
    take_congr (by omega) (by omega) fun i hi =>
      getD_assign_other (by simp [sha256dMs.extend]; omega) W
  have hhalf : (assign W sha256dMs.extend).take 32 = Sha256.expand 16 (W.take 16) := by
    rw [← hfront]
    exact take_of_isNext (Nat.le_refl 16) (show 16 + 16 ≤ _ by omega) hnext
  obtain ⟨hall, hrest⟩ := @foldl_schedulePair _ hlen 32 (by decide) 16 (Nat.le_refl 64)
  rw [List.take_of_length_le (Nat.le_of_eq hall), hhalf, ← Sha256.expand_add] at hrest
  exact hrest

/-! ## Rounds -/

theorem rndr_congr (S : Vector UInt32 8) {V W : List UInt32} {i : Nat}
    (h : V.getD i 0 = W.getD i 0) : rndr S V i = rndr S W i := by
  rw [rndr, rndr, h]

theorem foldl_rndr_congr (S : Vector UInt32 8) {V W : List UInt32} {n : Nat}
    (h : ∀ i < n, V.getD i 0 = W.getD i 0) :
    (List.range n).foldl (fun S i => rndr S V i) S =
      (List.range n).foldl (fun S i => rndr S W i) S :=
  List.foldl_ext _ _ S fun T i hi => rndr_congr T (h i (List.mem_range.mp hi))

/-- The first rounds and the ones behind them. -/
theorem foldl_rndr_add (S : Vector UInt32 8) (W : List UInt32) (m n : Nat) :
    (List.range (m + n)).foldl (fun S i => rndr S W i) S =
      (List.range n).foldl (fun S i => rndr S W (m + i))
        ((List.range m).foldl (fun S i => rndr S W i) S) := by
  rw [List.range_add, List.foldl_append, List.foldl_map]

/-- A round leaves all words but two as they were. -/
theorem rndr_other (S : Vector UInt32 8) (W : List UInt32) {i j : Nat} (hj : j < 8)
    (hd : (67 - i) % 8 ≠ j) (hh : (71 - i) % 8 ≠ j) : wordAt (rndr S W i) j = wordAt S j := by
  rw [wordAt_eq _ hj, wordAt_eq _ hj, rndr, Vector.getElem_set_ne _ _ hh,
    Vector.getElem_set_ne _ _ hd]

/-- The word that a round adds to. -/
theorem rndr_d (S : Vector UInt32 8) (W : List UInt32) {i : Nat} (hi : i < 64) :
    let v k := wordAt S ((64 + k - i) % 8)
    wordAt (rndr S W i) ((67 - i) % 8) =
      v 3 + (v 7 + S1 (v 4) + ch (v 4) (v 5) (v 6) + W.getD i 0 + sha256K.getD i 0) := by
  have hplace : ∀ k, (64 + k - i) % 8 < 8 := fun k => Nat.mod_lt _ (by decide)
  simp only [wordAt_eq _ (hplace _)]
  rw [wordAt_eq _ (hplace 3), rndr, Vector.getElem_set_ne _ _ (by omega), Vector.getElem_set_self,
    rnd]
  simp only [UInt32.add_assoc]

/-- The last seven rounds, as far as they concern the last word. -/
theorem finish_seven (hash : Vector UInt32 8) (W : List UInt32) :
    wordAt (sha256dMs.finish hash W) 7 = wordAt sha256H 7 +
      wordAt ((List.range 7).foldl (fun S i => rndr S W (57 + i)) hash) 7 := by
  have hrounds : (List.range 7).foldl (fun S i => rndr S W (57 + i)) hash =
      rndr (rndr (rndr (rndr (rndr (rndr (rndr hash W 57) W 58) W 59) W 60) W 61) W 62) W 63 := rfl
  have h57 := rndr_d hash W (show 57 < 64 by decide)
  have h58 := rndr_d (rndr hash W 57) W (show 58 < 64 by decide)
  have h59 := rndr_d (rndr (rndr hash W 57) W 58) W (show 59 < 64 by decide)
  have h60 := rndr_d (rndr (rndr (rndr hash W 57) W 58) W 59) W (show 60 < 64 by decide)
  simp only [Nat.reduceAdd, Nat.reduceSub, Nat.reduceMod] at h57 h58 h59 h60
  rw [hrounds]
  simp (disch := decide) only [rndr_other] at h57 h58 h59 h60 ⊢
  rw [h60]
  generalize wordAt (rndr (rndr (rndr hash W 57) W 58) W 59) 0 = d0 at h59 ⊢
  generalize wordAt (rndr (rndr hash W 57) W 58) 1 = d1 at h58 h59 ⊢
  generalize wordAt (rndr hash W 57) 2 = d2 at h57 h58 h59 ⊢
  simp (disch := decide) only [sha256dMs.finish, wordAt_setWord_self, wordAt_setWord_ne,
    ← h57, ← h58, ← h59]
  ac_rfl

/-! ## The second hash -/

theorem hashExtend_isNext {S : List UInt32} (hS : 32 ≤ S.length)
    (htail : ∀ i, 8 ≤ i → i < 16 → S.getD i 0 = sha256dHash1Words.getD i 0) :
    ∀ t, 16 ≤ t → t < 32 → IsNext (assign S sha256dMs.hashExtend) t := by
  have hext := getD_assign (l := sha256dMs.hashExtend) (by decide) (W := S)
    (place_lt (by decide) hS)
  have hfront : ∀ i, 8 ≤ i → i < 16 →
      (assign S sha256dMs.hashExtend).getD i 0 = sha256dHash1Words.getD i 0 := fun i hmin hmax => by
    rw [getD_assign_other (by simp [sha256dMs.hashExtend]; omega), htail i hmin hmax]
  generalize assign S sha256dMs.hashExtend = V at hext hfront ⊢
  simp only [sha256dMs.hashExtend, List.forall_mem_cons, Nat.reduceLT, if_true] at hext
  obtain ⟨e16, e17, e18, e19, e20, e21, e22, e23, e24, e25, e26, e27, e28, e29, e30, e31, -⟩ := hext
  intro t hmin hmax
  interval_cases t
  all_goals
    simp (disch := decide) only [IsNext, Nat.reduceSub, hfront]
    assumption

theorem finish_congr (hash : Vector UInt32 8) {V W : List UInt32}
    (h : ∀ i < 61, V.getD i 0 = W.getD i 0) :
    sha256dMs.finish hash V = sha256dMs.finish hash W := by
  rw [sha256dMs.finish, sha256dMs.finish, h 57 (by decide), h 58 (by decide), h 59 (by decide),
    h 60 (by decide)]

/-- The schedule of the second hash, as far as it is computed. -/
theorem hashSchedule_eq {S : List UInt32} (hS : S.length = 64)
    (htail : ∀ i, 8 ≤ i → i < 16 → S.getD i 0 = sha256dHash1Words.getD i 0) :
    ∀ i < 61, (assign ((List.range 14).foldl (fun S j => schedulePair S (32 + 2 * j))
      (assign S sha256dMs.hashExtend)) [(60, fun S => s1 (S 58) + S 53 + s0 (S 45) + S 44)]).getD i 0 =
        (Sha256.schedule (S.take 16)).getD i 0 := by
  have hlen : (assign S sha256dMs.hashExtend).length = 64 := by rw [length_assign, hS]
  have hfront : (assign S sha256dMs.hashExtend).take 16 = S.take 16 :=
    take_congr (by omega) (by omega) fun i hi =>
      getD_assign_other (by simp [sha256dMs.hashExtend]; omega) S
  have hhalf : (assign S sha256dMs.hashExtend).take 32 = Sha256.expand 16 (S.take 16) := by
    rw [← hfront]
    exact take_of_isNext (Nat.le_refl 16) (show 16 + 16 ≤ _ by omega)
      (hashExtend_isNext (by omega) htail)
  obtain ⟨hlen', hmost⟩ := @foldl_schedulePair _ hlen 32 (by decide) 14 (by decide)
  generalize (List.range 14).foldl (fun S j => schedulePair S (32 + 2 * j))
    (assign S sha256dMs.hashExtend) = T at hlen' hmost ⊢
  rw [hhalf, ← Sha256.expand_add] at hmost
  have hlast := Sha256.nextWord_take T (show 16 ≤ 60 by decide) (by omega)
  have hall : (T.set 60 (s1 (T.getD 58 0) + T.getD 53 0 + s0 (T.getD 45 0) + T.getD 44 0)).take 61 =
      Sha256.expand 45 (S.take 16) := by
    rw [take_set (by omega), Sha256.expand_add 44 1, ← hmost, Sha256.expand, Sha256.expand, hlast]
    rfl
  have hblock : (Sha256.schedule (S.take 16)).take 61 = Sha256.expand 45 (S.take 16) := by
    have htake := Sha256.take_expand (show 45 ≤ 48 by decide) (S.take 16)
    rwa [List.length_take, hS] at htake
  exact fun i hi => getD_of_take (hall.trans hblock.symm) hi

/-- The last word of the second hash. -/
theorem secondHash_seven {S : List UInt32} (hS : S.length = 64) {first : Vector UInt32 8}
    (hfirst : S.take 8 = first.toList) :
    wordAt (sha256dMs.secondHash S) 7 =
      wordAt (sha256Transform sha256H (first ++ sha256dHash1) false) 7 := by
  have hlen : (S.take 8 ++ sha256dHash1.toList ++ S.drop 16).length = 64 := by
    simp [hS]
  have hfront : (S.take 8 ++ sha256dHash1.toList ++ S.drop 16).take 16 =
      (first ++ sha256dHash1).toList := by
    rw [List.take_left' (by simp [hS]), hfirst, Vector.toList_append]
  have htail : ∀ i, 8 ≤ i → i < 16 → (S.take 8 ++ sha256dHash1.toList ++ S.drop 16).getD i 0 =
      sha256dHash1Words.getD i 0 := fun i hmin hmax => by
    have height : (S.take 8).length = 8 := by simp [hS]
    rw [List.getD_eq_getElem?_getD, List.getD_eq_getElem?_getD, sha256dHash1Words,
      List.getElem?_append_left (by simp [hS]; omega), List.getElem?_append_right (by omega), height,
      List.getElem?_append_right (by simpa using hmin), List.length_replicate]
  have hwords := hashSchedule_eq hlen htail
  rw [hfront] at hwords
  rw [sha256Transform_schedule, wordAt_ofFn _ (show 7 < 8 by decide), get_eq_wordAt, get_eq_wordAt,
    sha256dMs.secondHash, foldl_rndr_congr _ fun i hi => hwords i (by omega),
    finish_congr _ hwords, finish_seven, ← foldl_rndr_add]

/-! ## One call -/

/-- The first hash, with the three rounds that are done before the nonce is known. -/
theorem firstHash_eq (midstate : Vector UInt32 8) (block : Vector UInt32 16) {W : List UInt32}
    (hW : ∀ i < 3, W.getD i 0 = (Sha256.schedule block.toList).getD i 0) :
    sha256dMs.firstHash (Sha256.schedule block.toList) midstate (sha256dPrehash midstate W) =
      sha256Transform midstate block false := by
  rw [sha256Transform_schedule, sha256dMs.firstHash, sha256dPrehash, foldl_rndr_congr _ hW,
    ← foldl_rndr_add]
  simp only [UInt32.add_comm]

/-- The words of the schedule in front of the loop. -/
theorem take_schedule {W : List UInt32} (hW : W.length = 64) :
    (sha256dMs.schedule W).length = 64 ∧
      (sha256dMs.schedule W).take 32 = (assign W sha256dMs.extend).take 32 := by
  have hlen : (assign W sha256dMs.extend).length = 64 := by rw [length_assign, hW]
  obtain ⟨hall, hrest⟩ := @foldl_schedulePair _ hlen 32 (by decide) 16 (Nat.le_refl 64)
  have hfront := Sha256.take_expand (Nat.zero_le 32) ((assign W sha256dMs.extend).take 32)
  rw [List.take_of_length_le (Nat.le_of_eq hall)] at hrest
  rw [List.length_take, hlen] at hfront
  refine ⟨hall, ?_⟩
  rw [sha256dMs.schedule, hrest]
  exact hfront

theorem length_copyWords (places : List Nat) (S W : List UInt32) :
    (copyWords places S W).length = S.length :=
  length_assign _ S

/-- What is put back, and what no call assigns. -/
theorem sha256dMs_restores {S W : List UInt32} (hS : S.length = 64) (hW : W.length = 64)
    (midstate prehash : Vector UInt32 8) :
    (sha256dMs S W midstate prehash).2.length = 64 ∧
      ∀ i ∈ restoredWords, (sha256dMs S W midstate prehash).2.getD i 0 = W.getD i 0 := by
  obtain ⟨hlen, hfront⟩ := take_schedule hW
  have hsaved : ∀ i ∈ sha256dMs.saved, 8 ≤ i ∧ i < 64 := by decide
  have hcases : ∀ i ∈ restoredWords, i ∈ sha256dMs.saved ∨ i < 18 ∧ i ∉ sha256dMs.saved := by decide
  have hW' : (sha256dMs S W midstate prehash).2 = copyWords sha256dMs.saved (sha256dMs.schedule W)
      ((sha256dMs.firstHash (sha256dMs.schedule W) midstate prehash).toList ++
        (copyWords sha256dMs.saved S W).drop 8) := by rw [sha256dMs]
  rw [hW', length_copyWords, hlen]
  refine ⟨rfl, fun i hi => ?_⟩
  rw [getD_copyWords (by decide) fun j hj => by rw [hlen]; exact (hsaved j hj).2]
  rcases hcases i hi with hmem | ⟨hsmall, hmem⟩
  · -- behind the state, which has the first eight words of `S`
    have hmin := (hsaved i hmem).1
    rw [if_pos hmem, List.getD_eq_getElem?_getD, List.getElem?_append_right (by simpa using hmin),
      Vector.length_toList, List.getElem?_drop, Nat.add_sub_cancel' hmin,
      ← List.getD_eq_getElem?_getD, getD_copyWords (by decide) fun j hj => by
        rw [hS]
        exact (hsaved j hj).2, if_pos hmem]
  · rw [if_neg hmem, getD_of_take hfront (by omega)]
    exact getD_assign_other (by simp [sha256dMs.extend]; omega) W

/-- The hash of a call on an array that has the schedule of a block prepared. -/
theorem sha256dMs_seven {S W : List UInt32} (hS : S.length = 64) (hW : W.length = 64)
    (hnext : ∀ t, 16 ≤ t → t < 32 → IsNext (assign W sha256dMs.extend) t)
    {block : Vector UInt32 16} (hblock : W.take 16 = block.toList) (midstate : Vector UInt32 8)
    {V : List UInt32} (hV : ∀ i < 3, V.getD i 0 = W.getD i 0) :
    wordAt (sha256dMs S W midstate (sha256dPrehash midstate V)).1 7 =
      wordAt (sha256Transform sha256H (sha256Transform midstate block false ++ sha256dHash1) false)
        7 := by
  have hschedule := schedule_eq hW hnext
  rw [hblock] at hschedule
  have hwords : ∀ i < 3, V.getD i 0 = (Sha256.schedule block.toList).getD i 0 := fun i hi => by
    have hfront := Sha256.take_expand (Nat.zero_le 48) block.toList
    rw [Vector.length_toList, Nat.add_zero] at hfront
    rw [hV i hi, getD_of_take (n := 16) (hblock.trans hfront.symm) (by omega), Sha256.schedule]
  rw [sha256dMs]
  simp only
  rw [hschedule, firstHash_eq midstate block hwords]
  exact secondHash_seven (by simp [length_copyWords, hS]) (List.take_left' Vector.length_toList)

/-! ## A run -/

theorem getD_wordsAt (data : Vector UInt32 32) (off : Nat) {i : Nat} (hi : i < 16) :
    (wordsAt data off).toList.getD i 0 = wordAt data (off + i) := by
  rw [← wordAt, wordsAt, wordAt_ofFn _ hi]

/-- The nonce is not in the first block. -/
theorem wordsAt_zero_set (pdata : Vector UInt32 32) (n : UInt32) :
    wordsAt (setWord pdata 19 n) 0 = wordsAt pdata 0 := by
  refine Vector.ext fun i hi => ?_
  rw [wordsAt, wordsAt, Vector.getElem_ofFn, Vector.getElem_ofFn]
  exact wordAt_setWord_ne pdata (by omega) n

/-- The words of `data` that do not change between two calls. -/
structure Prepared (pdata : Vector UInt32 32) (rest : Vector UInt32 48) (W : List UInt32) :
    Prop where
  length : W.length = 64
  unchanged : ∀ i ∈ keptWords, W.getD i 0 = (msData pdata rest).getD i 0

section

variable (pdata : Vector UInt32 32) (rest : Vector UInt32 48)

theorem prepared_start : Prepared pdata rest (msData pdata rest) :=
  ⟨by simp [msData, sha256dPreextend, length_assign], fun _ _ => rfl⟩

variable {pdata rest}

theorem Prepared.set_nonce {W : List UInt32} (h : Prepared pdata rest W) (n : UInt32) :
    Prepared pdata rest (W.set 3 n) := by
  have hne : ∀ i ∈ keptWords, 3 ≠ i := by decide
  refine ⟨by rw [List.length_set, h.length], fun i hi => ?_⟩
  rw [getD_set, if_neg fun hthree => hne i hi hthree.1, h.unchanged i hi]

theorem Prepared.restores {W : List UInt32} (h : Prepared pdata rest W) (c : MsCall) :
    ((MsInput.of pdata).call W c).2.length = 64 ∧
      ∀ i ∈ restoredWords, ((MsInput.of pdata).call W c).2.getD i 0 = (W.set 3 c.nonce).getD i 0 := by
  rw [MsInput.call]
  exact sha256dMs_restores c.S.length_toList (h.set_nonce c.nonce).length _ _

/-- One call. -/
theorem Prepared.call {W : List UInt32} (h : Prepared pdata rest W) (c : MsCall) :
    Prepared pdata rest ((MsInput.of pdata).call W c).2 := by
  have hset := h.set_nonce c.nonce
  obtain ⟨hlen, hrestored⟩ := h.restores c
  refine ⟨hlen, fun i hi => ?_⟩
  rw [hrestored i (List.mem_of_mem_erase hi), hset.unchanged i hi]

theorem Prepared.run {calls : List MsCall} : ∀ {W : List UInt32}, Prepared pdata rest W →
    Prepared pdata rest ((MsInput.of pdata).run W calls) := by
  induction calls with
  | nil => exact fun h => h
  | cons c calls ih =>
      intro W h
      have hnext := ih (h.call c)
      rw [MsInput.run] at hnext ⊢
      rwa [List.foldl_cons]

/-- In front of what is extended stands the header. -/
theorem getD_msData {i : Nat} (hi : i < 16) :
    (msData pdata rest).getD i 0 = wordAt pdata (16 + i) := by
  rw [msData, sha256dPreextend,
    getD_assign_other (by simp [sha256dPreextend.words]; omega), ← getD_wordsAt pdata 16 hi,
    List.getD_eq_getElem?_getD, List.getElem?_append_left (by simpa using hi),
    ← List.getD_eq_getElem?_getD]

theorem Prepared.take_set {W : List UInt32} (h : Prepared pdata rest W) (n : UInt32) :
    (W.set 3 n).take 16 = (wordsAt (setWord pdata 19 n) 16).toList := by
  have hblock : (wordsAt (setWord pdata 19 n) 16).toList.length = 16 := Vector.length_toList
  have hkept : ∀ i < 16, i ≠ 3 → i ∈ keptWords := by decide
  rw [← List.take_of_length_le (Nat.le_of_eq hblock)]
  refine take_congr (by rw [List.length_set, h.length]; decide) (by rw [hblock]) fun i hi => ?_
  rw [getD_wordsAt _ _ hi, wordAt_setWord, getD_set, h.length]
  by_cases hthree : i = 3
  · rw [if_pos ⟨hthree.symm, by decide⟩, if_pos (by omega)]
  · rw [if_neg fun h => hthree h.1.symm, if_neg (by omega), h.unchanged i (hkept i hi hthree),
      getD_msData hi]

end

/-- The header words behind the nonce. -/
def headerPadding : List UInt32 := 0x80000000 :: (List.replicate 10 0 ++ [0x280])

/-- One call finds the hash of the header with its nonce. -/
theorem Prepared.call_seven {pdata : Vector UInt32 32} {rest : Vector UInt32 48} {W : List UInt32}
    (h : Prepared pdata rest W) (hpad : pdata.toList.drop 20 = headerPadding) (c : MsCall) :
    swab32 (wordAt ((MsInput.of pdata).call W c).1 7) =
      wordAt (sha256d80Swap (setWord pdata 19 c.nonce)) 7 := by
  have hset := h.set_nonce c.nonce
  have hzero : ∀ i, 5 ≤ i → i < 15 → (W.set 3 c.nonce).getD i 0 = 0 := fun i hmin hmax => by
    have hkept : ∀ i < 15, 5 ≤ i → i ∈ keptWords := by decide
    have hpadding : ∀ i < 15, 5 ≤ i → headerPadding.getD (i - 4) 0 = 0 := by decide
    have hword : headerPadding.getD (i - 4) 0 = wordAt pdata (16 + i) := by
      rw [← hpad, wordAt, List.getD_eq_getElem?_getD, List.getD_eq_getElem?_getD, List.getElem?_drop,
        show 20 + (i - 4) = 16 + i by omega]
    rw [hset.unchanged i (hkept i hmax hmin), getD_msData (by omega), ← hword,
      hpadding i hmax hmin]
  have hnext := extend_isNext (D := (wordsAt pdata 16).toList ++ rest.toList) (by simp)
    (by rw [hset.length]; decide) hzero hset.unchanged
  have hfirst : ∀ i < 3, (wordsAt pdata 16).toList.getD i 0 = (W.set 3 c.nonce).getD i 0 :=
    fun i hi => by
      have hkept : ∀ i < 3, i ∈ keptWords := by decide
      rw [hset.unchanged i (hkept i hi), getD_msData (by omega), getD_wordsAt _ _ (by omega)]
  have hseven := sha256dMs_seven c.S.length_toList hset.length hnext (h.take_set c.nonce)
    (sha256Transform sha256H (wordsAt pdata 0) false) hfirst
  rw [sha256d80Swap, wordsAt_zero_set, wordAt_map _ _ (show 7 < 8 by decide), ← hseven, MsInput.call,
    MsInput.of]

/-- After any nonces on the same array, the next one is hashed as it is in the whole header,
and the words that calls share are left as they were. -/
theorem sha256dMs_agrees (pdata : Vector UInt32 32)
    (hpad : pdata.toList.drop 20 = headerPadding) (rest : Vector UInt32 48)
    (calls : List MsCall) (c : MsCall) :
    let m := MsInput.of pdata
    let W := m.run (msData pdata rest) calls
    swab32 (wordAt (m.call W c).1 7) = wordAt (sha256d80Swap (setWord pdata 19 c.nonce)) 7 ∧
      ∀ i, i ≤ 20 ∨ (22 ≤ i ∧ i ≤ 24) ∨ i = 30 ∨ i = 31 →
        (m.call W c).2.getD i 0 = (W.set 3 c.nonce).getD i 0 := by
  intro m W
  have hrun : Prepared pdata rest W := (prepared_start pdata rest).run
  have hrestored : ∀ i, i ≤ 20 ∨ (22 ≤ i ∧ i ≤ 24) ∨ i = 30 ∨ i = 31 → i ∈ restoredWords := by
    intro i hi
    simp [restoredWords]
    omega
  refine ⟨hrun.call_seven hpad c, fun i hi => ?_⟩
  exact (hrun.restores c).2 i (hrestored i hi)

/-- A header of zeros, with one nonce behind another. -/
def zeroHeader : Vector UInt32 32 :=
  (Vector.replicate 31 0).set 20 0x80000000 |>.push 0x280

theorem sha256dMs_agrees_sample :
    swab32 (wordAt ((MsInput.of zeroHeader).call ((MsInput.of zeroHeader).run
      (msData zeroHeader (.replicate 48 0)) [⟨1, .replicate 64 0⟩]) ⟨2, .replicate 64 0⟩).1 7) =
        wordAt (sha256d80Swap (setWord zeroHeader 19 2)) 7 :=
  (sha256dMs_agrees zeroHeader (by decide) (.replicate 48 0) [⟨1, .replicate 64 0⟩]
    ⟨2, .replicate 64 0⟩).1

end AlphaMiner
