import AlphaMiner.Lib.Search
import AlphaMiner.Model.Miner

/-!
# Both scans are one interrupted search

The two loops differ in everything but what they do: one tests before it looks
at its limit and at the restart flag, the other after; one hands the library a
header and waits, the other keeps the header of the next nonce in flight and
rewrites the buffer twice per round. This file says what they have in common.
`searchAnswer` turns the answer of `Lib.search` over the offsets from the start
nonce into a `ScanResult`, and `scanhashRandomx_eq` and
`scanhashRandomxBatch_eq` read each function as that search: the same
candidates, the same test, and only the flag of the very first round and the
number of candidates told apart.

For the pipelined loop the invariant is that the machine holds the header of
the current nonce while the buffer may hold any; the buffer's stale nonce never
matters, because `encNonce` hides what an earlier one wrote.

The last section is about the test itself: on a little-endian host `fulltest`
compares two 256-bit integers, and the test in front of it turns that into a
comparison of the top words alone.
-/

namespace AlphaMiner

open Lib

/-! ## The header buffer -/

/-- The eighty bytes of a header, every word big endian. -/
def headerBytes (data : Vector UInt32 32) : Bytes :=
  (List.finRange 20).flatMap fun i : Fin 20 => be32enc (headerWord data i)

@[simp] theorem length_headerBytes (data : Vector UInt32 32) :
    (headerBytes data).length = 80 := by
  rw [headerBytes, length_flatMap_const (fun i => length_be32enc (headerWord data i)),
    List.length_finRange]

theorem headerBytes_eq_take (data : Vector UInt32 32) :
    headerBytes data = (data.toList.take 20).flatMap be32enc := by
  have hwords : data.toList.take 20 = (List.finRange 20).map (headerWord data) := by
    apply List.ext_getElem
    · simp
    · intro i h₁ h₂
      simp [headerWord]
  rw [hwords, List.flatMap_map, headerBytes]

/-- Only the first twenty words are read. -/
theorem headerBytes_congr {data data' : Vector UInt32 32}
    (h : ∀ i, headerWord data i = headerWord data' i) :
    headerBytes data = headerBytes data' := by
  rw [headerBytes, headerBytes]
  congr 1
  funext i
  exact congrArg be32enc (h i)

theorem blockHeader_eq (pdata : Vector UInt32 32) :
    blockHeader pdata = headerBytes pdata ++ List.replicate 32 0 := by
  rw [blockHeader, foldl_store_flatMap (fun i => be32enc (headerWord pdata i))
    (fun _ => length_be32enc _) (by simp), ← headerBytes]
  simp

@[simp] theorem length_blockHeader (pdata : Vector UInt32 32) :
    (blockHeader pdata).length = 112 := by
  rw [blockHeader_eq, List.length_append, length_headerBytes, List.length_replicate]

@[simp] theorem length_encNonce {header : Bytes} (h : 80 ≤ header.length) (n : UInt32) :
    (encNonce header n).length = header.length :=
  length_store (by simpa using h)

theorem encNonce_encNonce {header : Bytes} (h : 80 ≤ header.length) (m n : UInt32) :
    encNonce (encNonce header m) n = encNonce header n :=
  store_store (by simpa using h) rfl

/-- What the exit on a share leaves in the nonce word: the nonce's big-endian
bytes. -/
@[simp] theorem scanFound_nonce (host : ByteOrder) (pdata : Vector UInt32 32) (n : UInt32)
    (rxHash : Hash) (calls : List (Bytes × Hash)) :
    host.enc (nonceWord (scanFound host pdata n rxHash calls).pdata) = be32enc n := by
  rw [show (scanFound host pdata n rxHash calls).pdata =
    setNonceWord pdata (host.dec (be32enc n)) from rfl, nonceWord_setNonceWord]
  exact host.enc_dec (length_be32enc n)

/-! ## The two loops -/

section

variable (host : ByteOrder) (rx : RandomX) (restart : Nat → Bool)
  (pdata : Vector UInt32 32) (ptarget : Vector UInt32 8) (maxNonce : UInt32)
  (outRxHash : Hash) (vm : RandomxVm)

/-- The header that is hashed for nonce `n`. -/
def nonceHeader (n : UInt32) : Bytes := encNonce (blockHeader pdata) n

def nonceHash (n : UInt32) : Hash := rx.hash (nonceHeader pdata n)

def nonceCommitment (n : UInt32) : Hash :=
  rx.commitment (nonceHeader pdata n) (nonceHash rx pdata n)

/-- The nonce at offset `k` from the start. -/
def nonceAt (k : Nat) : UInt32 := nonceWord pdata + UInt32.ofNat k

def nonceTest (k : Nat) : Bool :=
  shareTest host ptarget (nonceCommitment rx pdata (nonceAt pdata k))

def nonceCalls (k : Nat) : List (Bytes × Hash) :=
  (List.range k).map fun j =>
    (nonceHeader pdata (nonceAt pdata j), nonceHash rx pdata (nonceAt pdata j))

/-- A search over the offsets, reported the way a scan reports. -/
def searchAnswer (r : Nat × Bool) : ScanResult :=
  if r.2 then
    scanFound host pdata (nonceAt pdata r.1) (nonceHash rx pdata (nonceAt pdata r.1))
      (nonceCalls rx pdata (r.1 + 1))
  else scanMissed pdata (nonceAt pdata r.1) outRxHash (nonceCalls rx pdata r.1)

theorem nonceAt_zero : nonceAt pdata 0 = nonceWord pdata := by simp [nonceAt]

theorem nonceAt_succ (k : Nat) : nonceAt pdata (k + 1) = nonceAt pdata k + 1 := by
  rw [nonceAt, nonceAt, UInt32.ofNat_add, ← UInt32.add_assoc]
  rfl

theorem nonceCalls_succ (k : Nat) :
    nonceCalls rx pdata (k + 1) = nonceCalls rx pdata k ++
      [(nonceHeader pdata (nonceAt pdata k), nonceHash rx pdata (nonceAt pdata k))] := by
  simp [nonceCalls, List.range_succ]

/-- Below a limit the counter does not wrap. -/
theorem toNat_succ_of_lt {n m : UInt32} (h : n < m) : (n + 1).toNat = n.toNat + 1 := by
  have hm := m.toNat_lt
  have hn : n.toNat < m.toNat := h
  rw [UInt32.toNat_add]
  simp
  omega

theorem scanhashRandomxBatch_loop_eq :
    ∀ (fuel k : Nat) (vm : RandomxVm) (header : Bytes),
      maxNonce.toNat < fuel + (nonceAt pdata k).toNat →
      vm.input = nonceHeader pdata (nonceAt pdata k) →
      (∀ n, encNonce header n = nonceHeader pdata n) → 80 ≤ header.length →
      scanhashRandomxBatch.loop host rx restart pdata ptarget maxNonce outRxHash
          fuel (nonceAt pdata k) k vm header (nonceCalls rx pdata k) =
        searchAnswer host rx pdata outRxHash
          (search (nonceTest host rx pdata ptarget) restart
            (maxNonce.toNat - (nonceAt pdata k).toNat) k) := by
  intro fuel
  induction fuel with
  | zero =>
      intro k vm header hfuel _ _ _
      rw [show maxNonce.toNat - (nonceAt pdata k).toNat = 0 by omega]
      rfl
  | succ fuel ih =>
      intro k vm header hfuel hvm hheader hlen
      rw [scanhashRandomxBatch.loop]
      by_cases hlt : nonceAt pdata k < maxNonce
      · have hlt' : (nonceAt pdata k).toNat < maxNonce.toNat := hlt
        have hs : (nonceAt pdata (k + 1)).toNat = (nonceAt pdata k).toNat + 1 := by
          rw [nonceAt_succ]
          exact toNat_succ_of_lt hlt
        obtain ⟨len, hlen'⟩ : ∃ len, maxNonce.toNat - (nonceAt pdata k).toNat = len + 1 :=
          ⟨maxNonce.toNat - (nonceAt pdata k).toNat - 1, by omega⟩
        rw [hlen', search]
        cases hstop : restart k with
        | true => simp [searchAnswer]
        | false =>
            have hbuf : encNonce (encNonce header (nonceAt pdata k + 1)) (nonceAt pdata k) =
                nonceHeader pdata (nonceAt pdata k) := by
              rw [encNonce_encNonce hlen, hheader]
            simp only [hlt, decide_true, Bool.not_false, Bool.and_self, if_true,
              randomxCalculateHashNext, randomxCalculateCommitment, hvm, hbuf]
            rw [← nonceAt_succ]
            have htest : shareTest host ptarget
                (rx.commitment (nonceHeader pdata (nonceAt pdata k))
                  (rx.hash (nonceHeader pdata (nonceAt pdata k)))) =
                nonceTest host rx pdata ptarget k := rfl
            rw [htest]
            cases hhit : nonceTest host rx pdata ptarget k with
            | true => simp [searchAnswer, nonceCalls_succ, nonceHash]
            | false =>
                have hcalls := nonceCalls_succ rx pdata k
                rw [nonceHash] at hcalls
                simp only [Bool.false_eq_true, if_false]
                rw [← hcalls, ih (k + 1)]
                · rw [show maxNonce.toNat - (nonceAt pdata (k + 1)).toNat = len by omega]
                · omega
                · rw [hheader]
                · intro n
                  rw [nonceHeader, encNonce_encNonce (by simp), ← nonceHeader]
                · simp [nonceHeader]
      · have hge : maxNonce.toNat ≤ (nonceAt pdata k).toNat := by
          simpa [UInt32.lt_iff_toNat_lt] using hlt
        rw [show maxNonce.toNat - (nonceAt pdata k).toNat = 0 by omega]
        simp [hlt, search, searchAnswer]

/-- `scanhash_randomx_batch` is the search over `[pdata[19], max_nonce)`. -/
theorem scanhashRandomxBatch_eq :
    scanhashRandomxBatch host rx restart pdata ptarget maxNonce outRxHash vm =
      searchAnswer host rx pdata outRxHash
        (search (nonceTest host rx pdata ptarget) restart
          (maxNonce.toNat - (nonceWord pdata).toNat) 0) := by
  have h := scanhashRandomxBatch_loop_eq host rx restart pdata ptarget maxNonce outRxHash
    (maxNonce.toNat + 1) 0 (randomxCalculateHashFirst vm (nonceHeader pdata (nonceWord pdata)))
    (nonceHeader pdata (nonceWord pdata))
  rw [nonceAt_zero] at h
  exact h (by omega) rfl
    (fun n => by rw [nonceHeader, encNonce_encNonce (by simp), ← nonceHeader])
    (by simp [nonceHeader])

/-- The flag as the do-while loop reads it: not before the first hash. -/
def restartLate (k : Nat) : Bool := k != 0 && restart k

theorem scanhashRandomx_loop_eq :
    ∀ (fuel k : Nat) (header : Bytes),
      maxNonce.toNat < fuel + (nonceAt pdata (k + 1)).toNat → 0 < fuel →
      restartLate restart k = false →
      (∀ n, encNonce header n = nonceHeader pdata n) →
      scanhashRandomx.loop host rx restart pdata ptarget maxNonce outRxHash vm
          fuel (nonceAt pdata k) k header (nonceCalls rx pdata k) =
        searchAnswer host rx pdata outRxHash
          (search (nonceTest host rx pdata ptarget) (restartLate restart)
            (maxNonce.toNat - (nonceAt pdata (k + 1)).toNat + 1) k) := by
  intro fuel
  induction fuel with
  | zero =>
      intro k header _ hpos
      exact absurd hpos (Nat.lt_irrefl 0)
  | succ fuel ih =>
      intro k header hfuel _ hstop hheader
      have hcalls := nonceCalls_succ rx pdata k
      rw [nonceHash] at hcalls
      have htest : shareTest host ptarget
          (rx.commitment (nonceHeader pdata (nonceAt pdata k))
            (rx.hash (nonceHeader pdata (nonceAt pdata k)))) =
          nonceTest host rx pdata ptarget k := rfl
      rw [scanhashRandomx.loop, search, hstop]
      simp only [randomxCalculateHash, randomxCalculateCommitment, hheader, htest,
        ← hcalls, ← nonceAt_succ, Bool.false_eq_true, if_false]
      cases hhit : nonceTest host rx pdata ptarget k with
      | true => simp [searchAnswer, nonceHash]
      | false =>
          by_cases hlt : nonceAt pdata (k + 1) < maxNonce
          · have hlt' : (nonceAt pdata (k + 1)).toNat < maxNonce.toNat := hlt
            have hs : (nonceAt pdata (k + 1 + 1)).toNat =
                (nonceAt pdata (k + 1)).toNat + 1 := by
              rw [nonceAt_succ]
              exact toNat_succ_of_lt hlt
            have hlen : maxNonce.toNat - (nonceAt pdata (k + 1)).toNat =
                maxNonce.toNat - (nonceAt pdata (k + 1 + 1)).toNat + 1 := by omega
            cases hrs : restart (k + 1) with
            | true => simp [hlt, hlen, search, restartLate, hrs, searchAnswer]
            | false =>
                simp only [hlt, decide_true, Bool.not_false, Bool.and_self, if_true,
                  Bool.false_eq_true, if_false]
                rw [ih (k + 1)]
                · rw [hlen]
                · omega
                · omega
                · simp [restartLate, hrs]
                · intro n
                  rw [nonceHeader, encNonce_encNonce (by simp), ← nonceHeader]
          · have hge : maxNonce.toNat ≤ (nonceAt pdata (k + 1)).toNat := by
              simpa [UInt32.lt_iff_toNat_lt] using hlt
            rw [show maxNonce.toNat - (nonceAt pdata (k + 1)).toNat = 0 by omega]
            simp [hlt, search, searchAnswer]

/-- `scanhash_randomx` is the search that always tests its first nonce. -/
theorem scanhashRandomx_eq :
    scanhashRandomx host rx restart pdata ptarget maxNonce outRxHash vm =
      searchAnswer host rx pdata outRxHash
        (search (nonceTest host rx pdata ptarget) (restartLate restart)
          (maxNonce.toNat - (nonceWord pdata + 1).toNat + 1) 0) := by
  have h := scanhashRandomx_loop_eq host rx restart pdata ptarget maxNonce outRxHash vm
    (maxNonce.toNat + 1) 0 (blockHeader pdata)
  rw [nonceAt_succ, nonceAt_zero] at h
  exact h (by omega) (by omega) rfl (fun _ => rfl)

end

/-! ## The scan of a round -/

/-- What can stop the scan of a round, whichever of the two it is. -/
def scanStop (cfg : MinerConfig) (r : Round) : Nat → Bool :=
  if cfg.wantBatchmode then r.restart else restartLate r.restart

/-- How many nonces it may try. -/
def scanLength (cfg : MinerConfig) (nonce max : UInt32) : Nat :=
  if cfg.wantBatchmode then max.toNat - nonce.toNat else max.toNat - (nonce + 1).toNat + 1

theorem scanhash_eq (cfg : MinerConfig) (r : Round) (work : Work) (max : UInt32) :
    scanhash cfg r work max =
      searchAnswer cfg.host cfg.rx work.data work.rxHash
        (search (nonceTest cfg.host cfg.rx work.data work.target) (scanStop cfg r)
          (scanLength cfg (nonceWord work.data) max) 0) := by
  unfold scanhash scanStop scanLength
  split
  · exact scanhashRandomxBatch_eq ..
  · exact scanhashRandomx_eq ..

/-- What a scan answers when it has a share. -/
theorem scanhash_found {cfg : MinerConfig} {r : Round} {work : Work} {max : UInt32}
    (h : (scanhash cfg r work max).rc = 1) :
    ∃ n calls, scanhash cfg r work max =
        scanFound cfg.host work.data n (nonceHash cfg.rx work.data n) calls ∧
      calls.getLast? = some (nonceHeader work.data n, nonceHash cfg.rx work.data n) ∧
      shareTest cfg.host work.target (nonceCommitment cfg.rx work.data n) = true := by
  have hs := search_spec (nonceTest cfg.host cfg.rx work.data work.target) (scanStop cfg r)
    (scanLength cfg (nonceWord work.data) max) 0
  rw [scanhash_eq] at h ⊢
  generalize search (nonceTest cfg.host cfg.rx work.data work.target) (scanStop cfg r)
    (scanLength cfg (nonceWord work.data) max) 0 = a at h hs ⊢
  obtain ⟨k, found⟩ := a
  cases found with
  | true =>
      obtain ⟨-, hhit, -⟩ := hs.found rfl
      refine ⟨nonceAt work.data k, _, rfl, ?_, hhit⟩
      rw [nonceCalls_succ, List.getLast?_concat]
  | false => exact absurd (show (0 : Int) = 1 from h) (by decide)

/-! ## The nonce in the header -/

/-- The seventy-six bytes in front of the nonce. -/
def headerFront (data : Vector UInt32 32) : Bytes := (data.toList.take 19).flatMap be32enc

@[simp] theorem length_headerFront (data : Vector UInt32 32) :
    (headerFront data).length = 76 := by
  rw [headerFront, length_flatMap_const length_be32enc]
  simp

theorem headerBytes_eq_front (data : Vector UInt32 32) :
    headerBytes data = headerFront data ++ be32enc (nonceWord data) := by
  rw [headerBytes_eq_take, headerFront, List.take_succ_eq_append_getElem (by simp),
    List.flatMap_append, Vector.getElem_toList]
  simp [nonceWord]

@[simp] theorem headerFront_set (data : Vector UInt32 32) (w : UInt32) :
    headerFront (setNonceWord data w) = headerFront data := by
  rw [headerFront, headerFront, take_setNonceWord]

theorem headerBytes_set (data : Vector UInt32 32) (w : UInt32) :
    headerBytes (setNonceWord data w) = headerFront data ++ be32enc w := by
  rw [headerBytes_eq_front, headerFront_set, nonceWord_setNonceWord]

/-- The nonce is serialised little endian, the rest of the header as it is. -/
theorem nonceHeader_eq (data : Vector UInt32 32) (n : UInt32) :
    nonceHeader data n = headerFront data ++ le32enc n ++ List.replicate 32 0 := by
  have hlen : (le32enc n).length = (be32enc (nonceWord data)).length := rfl
  rw [nonceHeader, encNonce, blockHeader_eq, headerBytes_eq_front,
    store_middle (length_headerFront data) hlen]

/-- On a little-endian host the record of a share serialises to the header that
was hashed. -/
theorem headerBytes_scanFound (data : Vector UInt32 32) (n : UInt32) (rxHash : Hash)
    (calls : List (Bytes × Hash)) :
    headerBytes (scanFound .little data n rxHash calls).pdata ++ List.replicate 32 0 =
      nonceHeader data n := by
  rw [nonceHeader_eq, show (scanFound .little data n rxHash calls).pdata =
    setNonceWord data (swab32 n) from rfl, headerBytes_set, be32enc_swab32]

/-! ## The test -/

theorem fulltest_go_eq (hash target : Vector UInt32 8) :
    ∀ (i : Nat) (h : i ≤ 8), fulltest.go hash target i h =
      decide (wordsValue (hash.toList.take i) ≤ wordsValue (target.toList.take i)) := by
  intro i
  induction i with
  | zero => intro _; simp [fulltest.go, wordsValue]
  | succ i ih =>
      intro h
      have hi : ∀ v : Vector UInt32 8, i < v.toList.length := by
        intro v
        rw [Vector.length_toList]
        omega
      have hl : (hash.toList.take i).length = (target.toList.take i).length := by simp
      rw [fulltest.go, List.take_succ_eq_append_getElem (hi hash),
        List.take_succ_eq_append_getElem (hi target), Vector.getElem_toList,
        Vector.getElem_toList]
      split
      · next hgt =>
          have := wordsValue_concat_lt hl.symm hgt
          symm
          rw [decide_eq_false_iff_not]
          omega
      · next hgt =>
          split
          · next hlt =>
              have := wordsValue_concat_lt hl hlt
              symm
              rw [decide_eq_true_eq]
              omega
          · next hlt =>
              have heq : hash[i] = target[i] :=
                UInt32.le_antisymm (UInt32.not_lt.mp hgt) (UInt32.not_lt.mp hlt)
              rw [ih, heq]
              exact decide_eq_decide.mpr (wordsValue_concat_le hl _).symm

/-- `fulltest` compares two 256-bit integers. -/
theorem fulltest_eq (hash target : Vector UInt32 8) :
    fulltest hash target = decide (wordsValue hash.toList ≤ wordsValue target.toList) := by
  rw [fulltest, fulltest_go_eq, List.take_of_length_le (by simp),
    List.take_of_length_le (by simp)]

/-- The strict test in front leaves `fulltest` nothing to decide. -/
theorem shareTest_eq (host : ByteOrder) (ptarget : Vector UInt32 8) (rxCm : Hash) :
    shareTest host ptarget rxCm =
      decide (highWord (host.words 8 rxCm.toList) < highWord ptarget) := by
  simp only [shareTest, fulltest, fulltest.go]
  by_cases hlt : highWord (host.words 8 rxCm.toList) < highWord ptarget
  · have hgt : ¬ highWord (host.words 8 rxCm.toList) > highWord ptarget :=
      UInt32.not_lt.mpr (UInt32.le_of_lt hlt)
    unfold highWord at hlt hgt ⊢
    simp [hlt, hgt]
  · simp [hlt]

/-- On a little-endian host the words of a commitment spell the integer its
bytes spell. -/
theorem leValue_hash (cm : Hash) :
    leValue cm.toList = wordsValue (ByteOrder.little.words 8 cm.toList).toList := by
  rw [← leValue_flatMap_le32enc]
  have h := ByteOrder.bytes_words .little (show cm.toList.length = 4 * 8 by simp)
  rw [ByteOrder.bytes_eq_flatMap] at h
  exact congrArg leValue h.symm

end AlphaMiner
