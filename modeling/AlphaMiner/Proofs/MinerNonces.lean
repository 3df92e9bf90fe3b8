import AlphaMiner.Model.Miner
import AlphaMiner.Proofs.ScanSpec
import Mathlib.Data.List.Nodup

/-!
# The nonces a thread tries

A scan tries consecutive nonces, and what it leaves in the nonce word is either
the first one it did not try or, after a share, that share's bytes in the other
order. The loop of `miner_thread` adds one to whatever it finds there. Both
halves of this file follow that sum over the rounds a thread spends on one
block.

When no round finds a share, the loop's increment skips one nonce per round:
`noneSkipped_iff` says that nothing is skipped exactly when all rounds but the
first try nothing. When a round does find one, the loop goes on from the swapped
word, which may lie anywhere; `ownRange_of_resumesAhead` keeps a thread inside
its range, with no nonce tried twice, as long as the swapped word is not behind
the share and the word does not wrap.
-/

namespace AlphaMiner

open Lib

/-! ## Consecutive nonces -/

/-- The `m` nonces from `n` on. -/
def nonceRun (n : UInt32) (m : Nat) : List UInt32 :=
  (List.range m).map fun j => n + UInt32.ofNat j

@[simp] theorem length_nonceRun (n : UInt32) (m : Nat) : (nonceRun n m).length = m := by
  simp [nonceRun]

theorem nonceRun_append (n : UInt32) (a b : Nat) :
    nonceRun n (a + b) = nonceRun n a ++ nonceRun (n + UInt32.ofNat a) b := by
  simp only [nonceRun, List.range_add, List.map_append, List.map_map]
  congr 1
  apply List.map_congr_left
  intro j _
  rw [Function.comp_apply, UInt32.ofNat_add, UInt32.add_assoc]

theorem nonceRun_inj {n n' : UInt32} {m : Nat} :
    nonceRun n m = nonceRun n' m ↔ m = 0 ∨ n = n' := by
  constructor
  · intro h
    cases m with
    | zero => exact .inl rfl
    | succ m =>
        have h0 := congrArg List.head? h
        simp [nonceRun, List.range_succ_eq_map] at h0
        exact .inr h0
  · rintro (rfl | rfl)
    · rfl
    · rfl

/-- Consecutive nonces stay consecutive when more follow, if those start where
the first ones ended. -/
theorem nonceRun_extend {l : List UInt32} {start n : UInt32} {m : Nat} :
    l ++ nonceRun n m = nonceRun start (l ++ nonceRun n m).length ↔
      l = nonceRun start l.length ∧ (m = 0 ∨ n = start + UInt32.ofNat l.length) := by
  rw [List.length_append, length_nonceRun, nonceRun_append]
  constructor
  · intro h
    obtain ⟨h₁, h₂⟩ := List.append_inj h (by simp)
    exact ⟨h₁, nonceRun_inj.mp h₂⟩
  · rintro ⟨h₁, h₂⟩
    rw [← nonceRun_inj] at h₂
    rw [h₂, ← h₁]

theorem toNat_add_ofNat {n : UInt32} {j : Nat} (h : n.toNat + j < 2 ^ 32) :
    (n + UInt32.ofNat j).toNat = n.toNat + j := by
  rw [UInt32.toNat_add, UInt32.toNat_ofNat']
  omega

theorem mem_nonceRun {n x : UInt32} {m : Nat} (h : n.toNat + m ≤ 2 ^ 32)
    (hx : x ∈ nonceRun n m) : n.toNat ≤ x.toNat ∧ x.toNat < n.toNat + m := by
  obtain ⟨j, hj, rfl⟩ := List.mem_map.mp hx
  have hj := List.mem_range.mp hj
  rw [toNat_add_ofNat (by omega)]
  omega

theorem nonceRun_nodup {n : UInt32} {m : Nat} (h : n.toNat + m ≤ 2 ^ 32) :
    (nonceRun n m).Nodup := by
  rw [nonceRun]
  refine List.Nodup.map_on ?_ List.nodup_range
  intro i hi j hj hij
  have hi := List.mem_range.mp hi
  have hj := List.mem_range.mp hj
  have := congrArg UInt32.toNat hij
  rw [toNat_add_ofNat (by omega), toNat_add_ofNat (by omega)] at this
  omega

/-! ## One scan -/

/-- The nonces a scan computed commitments for, read off the headers it used. -/
def testedNonces (res : ScanResult) : List UInt32 :=
  res.calls.map fun call => le32dec (slice call.1 76 4)

theorem slice_nonceHeader (pdata : Vector UInt32 32) (n : UInt32) :
    slice (nonceHeader pdata n) 76 4 = le32enc n :=
  slice_store (by simp)

theorem testedNonces_searchAnswer (host : ByteOrder) (rx : RandomX) (pdata : Vector UInt32 32)
    (outRxHash : Hash) (r : Nat × Bool) :
    testedNonces (searchAnswer host rx pdata outRxHash r) =
      nonceRun (nonceWord pdata) (if r.2 then r.1 + 1 else r.1) := by
  have hcalls : ∀ k, (nonceCalls rx pdata k).map
      (fun call => le32dec (slice call.1 76 4)) = nonceRun (nonceWord pdata) k := by
    intro k
    rw [nonceCalls, List.map_map, nonceRun]
    apply List.map_congr_left
    intro j _
    rw [Function.comp_apply, slice_nonceHeader, le32dec_le32enc, nonceAt]
  obtain ⟨k, found⟩ := r
  cases found with
  | true => exact hcalls (k + 1)
  | false => exact hcalls k

section

variable (host : ByteOrder) (rx : RandomX) (restart : Nat → Bool)
  (pdata : Vector UInt32 32) (ptarget : Vector UInt32 8) (max : UInt32)
  (outRxHash : Hash) (vm : RandomxVm)

/-- What a pipelined scan tries, and what it leaves in the nonce word. -/
theorem scanhashRandomxBatch_nonces :
    let res := scanhashRandomxBatch host rx restart pdata ptarget max outRxHash vm
    ∃ m, m ≤ max.toNat - (nonceWord pdata).toNat ∧
      testedNonces res = nonceRun (nonceWord pdata) m ∧
      (res.rc = 0 ∧ res.pdata = setNonceWord pdata (nonceWord pdata + UInt32.ofNat m) ∨
        res.rc = 1 ∧ 0 < m ∧ res.pdata =
          setNonceWord pdata (host.dec (be32enc (nonceWord pdata + UInt32.ofNat (m - 1))))) := by
  intro res
  have hres : res = searchAnswer host rx pdata outRxHash _ :=
    scanhashRandomxBatch_eq host rx restart pdata ptarget max outRxHash vm
  have hs := search_spec (nonceTest host rx pdata ptarget) restart
    (max.toNat - (nonceWord pdata).toNat) 0
  generalize search (nonceTest host rx pdata ptarget) restart
    (max.toNat - (nonceWord pdata).toNat) 0 = r at hres hs
  obtain ⟨k, found⟩ := r
  rw [hres, testedNonces_searchAnswer]
  cases found with
  | true =>
      obtain ⟨hlt, -, -⟩ := hs.found rfl
      exact ⟨k + 1, by simp only at hlt; omega, rfl, .inr ⟨rfl, Nat.succ_pos k, rfl⟩⟩
  | false =>
      have hle := hs.le
      exact ⟨k, by simp only at hle; omega, rfl, .inl ⟨rfl, rfl⟩⟩

end

/-- Only the pipelined scan can end before its first nonce. -/
theorem scanStop_or_scanLength (cfg : MinerConfig) (r : Round) (nonce max : UInt32) :
    scanStop cfg r 0 = true ∨ scanLength cfg nonce max = 0 ↔
      cfg.wantBatchmode = true ∧ (r.restart 0 = true ∨ max ≤ nonce) := by
  unfold scanStop scanLength
  split
  · next hbatch =>
      rw [UInt32.le_iff_toNat_le, Nat.sub_eq_zero_iff_le]
      simp [hbatch]
  · next hbatch => simp [hbatch, restartLate]

/-- A scan that finds nothing leaves the first nonce it did not try, and it
tries none only where the pipelined loop stops before its first hash. -/
theorem scanhash_missed (cfg : MinerConfig) (r : Round) (work : Work) (max : UInt32)
    (hmiss : (scanhash cfg r work max).rc = 0) :
    ∃ m, testedNonces (scanhash cfg r work max) = nonceRun (nonceWord work.data) m ∧
      (scanhash cfg r work max).pdata =
        setNonceWord work.data (nonceWord work.data + UInt32.ofNat m) ∧
      (m = 0 ↔ cfg.wantBatchmode = true ∧ (r.restart 0 = true ∨ max ≤ nonceWord work.data)) := by
  have hs := search_spec (nonceTest cfg.host cfg.rx work.data work.target) (scanStop cfg r)
    (scanLength cfg (nonceWord work.data) max) 0
  rw [← scanStop_or_scanLength]
  rw [scanhash_eq] at hmiss ⊢
  generalize search (nonceTest cfg.host cfg.rx work.data work.target) (scanStop cfg r)
    (scanLength cfg (nonceWord work.data) max) 0 = a at hmiss hs ⊢
  obtain ⟨k, found⟩ := a
  cases found with
  | true => exact absurd (show (1 : Int) = 0 from hmiss) (by decide)
  | false =>
      refine ⟨k, by rw [testedNonces_searchAnswer]; rfl, rfl, ?_, ?_⟩
      · intro hk
        rcases hs.ended rfl with he | hst
        · simp only at he
          exact .inr (by omega)
        · simp only [hk] at hst
          exact .inl hst
      · intro hidle
        rcases hidle with hst | hlen
        · cases k with
          | zero => rfl
          | succ k =>
              have := hs.run 0 (Nat.le_refl 0) (Nat.succ_pos k)
              rw [hst] at this
              cases this
        · have hle := hs.le
          simp only at hle
          omega

/-! ## One round -/

/-- All the nonces tried so far. -/
def MinerState.tested (s : MinerState) : List UInt32 :=
  s.scans.flatMap fun scan => testedNonces scan.result

theorem blockWords_set (data : Vector UInt32 32) (n : UInt32) :
    blockWords (setNonceWord data n) = blockWords data := by
  rw [blockWords, blockWords, take_setNonceWord]

theorem blockWords_loadWork (cfg : MinerConfig) (gWork work : Work) :
    blockWords (loadWork cfg gWork work).data = blockWords gWork.data := by
  rw [loadWork]
  split
  · rw [blockWords_set, workCopy]
  · next h => rw [blockWords_set, not_not.mp h]

theorem loadWork_nonce (cfg : MinerConfig) (gWork work : Work) :
    nonceWord (loadWork cfg gWork work).data =
      if blockWords work.data = blockWords gWork.data then nonceWord work.data + 1
      else startNonce cfg := by
  by_cases h : blockWords work.data = blockWords gWork.data
  · simp [loadWork, h]
  · simp [loadWork, h]

theorem tested_minerRound (cfg : MinerConfig) (s : MinerState) (r : Round) :
    (minerRound cfg s r).tested = s.tested ++
      testedNonces (scanhash cfg r (loadWork cfg r.gWork s.work)
        (maxNonce cfg (nonceWord (loadWork cfg r.gWork s.work).data) r.max64)) := by
  simp [MinerState.tested, minerRound]

/-! ## No share found

Every round that goes on adds one to the nonce word on top of the nonces that
were tried, so the `j`-th round starts `j` nonces behind where it should. -/

/-- A round that stops before its first hash, which only the pipelined loop
does: the flag was set on entry, or the nonce had reached the limit. -/
def Idle (cfg : MinerConfig) (scan : Scan) : Prop :=
  cfg.wantBatchmode = true ∧ (scan.stopped = true ∨ scan.max ≤ scan.nonce)

/-- The nonces tried are one interval that begins at the thread's first nonce,
in order. -/
def NoneSkipped (cfg : MinerConfig) (s : MinerState) : Prop :=
  s.tested = nonceRun (startNonce cfg) s.tested.length

theorem add_ofNat_eq_iff (n : UInt32) (a j : Nat) :
    n + UInt32.ofNat (a + j) = n + UInt32.ofNat a ↔ 2 ^ 32 ∣ j := by
  rw [← UInt32.toNat_inj, UInt32.toNat_add, UInt32.toNat_add, UInt32.toNat_ofNat',
    UInt32.toNat_ofNat']
  omega

theorem forall_getElem?_concat {α : Type} {P : Nat → α → Prop} {l : List α} {a : α} :
    (∀ j x, (l ++ [a])[j]? = some x → P j x) ↔
      (∀ j x, l[j]? = some x → P j x) ∧ P l.length a := by
  constructor
  · intro h
    refine ⟨fun j x hx => h j x ?_, h l.length a (by simp)⟩
    rw [List.getElem?_append_left (List.getElem?_eq_some_iff.mp hx).1]
    exact hx
  · rintro ⟨h, ha⟩ j x hx
    rcases Nat.lt_or_ge j l.length with hj | hj
    · exact h j x (by rwa [List.getElem?_append_left hj] at hx)
    · rw [List.getElem?_append_right hj, List.getElem?_singleton] at hx
      split at hx
      · next h0 =>
          obtain rfl : j = l.length := by omega
          cases hx
          exact ha
      · cases hx

/-- Where a thread that has found no share stands: its record holds the block
once it has begun, and the nonce word is ahead of the nonces tried by the
number of rounds that went on from another. -/
structure MissInvariant (cfg : MinerConfig) (block : List UInt32) (s : MinerState) : Prop where
  loaded : blockWords s.work.data = block ↔ s.scans ≠ []
  nonce : ∀ k, s.scans.length = k + 1 →
    nonceWord s.work.data = startNonce cfg + UInt32.ofNat (s.tested.length + k)
  skipped : NoneSkipped cfg s ↔
    ∀ j scan, s.scans[j]? = some scan → Idle cfg scan ∨ 2 ^ 32 ∣ j

theorem MissInvariant.next_nonce {cfg : MinerConfig} {block : List UInt32} {s : MinerState}
    (h : MissInvariant cfg block s) {gWork : Work} (hblock : blockWords gWork.data = block) :
    nonceWord (loadWork cfg gWork s.work).data =
      startNonce cfg + UInt32.ofNat (s.tested.length + s.scans.length) := by
  rw [loadWork_nonce, hblock]
  cases hs : s.scans with
  | nil =>
      rw [if_neg (fun hb => (h.loaded.mp hb) hs)]
      simp [MinerState.tested, hs]
  | cons scan scans =>
      rw [if_pos (h.loaded.mpr (by rw [hs]; exact List.cons_ne_nil _ _)),
        h.nonce scans.length (by rw [hs, List.length_cons]), UInt32.add_assoc,
        List.length_cons, ← Nat.add_assoc]
      congr 1
      exact (UInt32.ofNat_add _ 1).symm

theorem missInvariant_round {cfg : MinerConfig} {block : List UInt32} {s : MinerState}
    (h : MissInvariant cfg block s) (r : Round) (hblock : blockWords r.gWork.data = block)
    (hmiss : ∀ scan ∈ (minerRound cfg s r).scans, scan.result.rc = 0) :
    MissInvariant cfg block (minerRound cfg s r) := by
  have hnonce := h.next_nonce hblock
  have hload := blockWords_loadWork cfg r.gWork s.work
  obtain ⟨m, htested, hdata, hidle⟩ := scanhash_missed cfg r (loadWork cfg r.gWork s.work)
    (maxNonce cfg (nonceWord (loadWork cfg r.gWork s.work).data) r.max64)
    (hmiss _ (List.mem_append_right _ (List.mem_singleton_self _)))
  have htested' := tested_minerRound cfg s r
  rw [htested] at htested'
  have hdata' : (minerRound cfg s r).work.data = setNonceWord (loadWork cfg r.gWork s.work).data
      (nonceWord (loadWork cfg r.gWork s.work).data + UInt32.ofNat m) := hdata
  refine ⟨?_, ?_, ?_⟩
  · have hwork : blockWords (minerRound cfg s r).work.data = block := by
      rw [hdata', blockWords_set, hload, hblock]
    exact ⟨fun _ => by simp [minerRound], fun _ => hwork⟩
  · intro k hk
    have hk' : s.scans.length = k := by simpa [minerRound] using hk
    simp only [hdata']
    rw [nonceWord_setNonceWord, hnonce, htested', List.length_append, length_nonceRun,
      UInt32.add_assoc, ← UInt32.ofNat_add, hk']
    congr 2
    omega
  · have hlast : Idle cfg ⟨nonceWord (loadWork cfg r.gWork s.work).data,
        maxNonce cfg (nonceWord (loadWork cfg r.gWork s.work).data) r.max64, r.restart 0,
        scanhash cfg r (loadWork cfg r.gWork s.work)
          (maxNonce cfg (nonceWord (loadWork cfg r.gWork s.work).data) r.max64)⟩ ↔ m = 0 :=
      hidle.symm
    rw [NoneSkipped, htested', nonceRun_extend, ← NoneSkipped, h.skipped, hnonce,
      add_ofNat_eq_iff, ← hlast]
    exact forall_getElem?_concat.symm

theorem missInvariant_reachable {cfg : MinerConfig} {block : List UInt32} {s : MinerState}
    (h : (minerThread cfg block).Reachable s)
    (hmiss : ∀ scan ∈ s.scans, scan.result.rc = 0) : MissInvariant cfg block s := by
  refine h.invariant (I := fun s => (∀ scan ∈ s.scans, scan.result.rc = 0) →
    MissInvariant cfg block s) ?_ ?_ hmiss
  · rintro s ⟨hblock, hscans⟩ -
    refine ⟨by simp [hblock, hscans], by simp [hscans], ?_⟩
    simp [NoneSkipped, MinerState.tested, hscans, nonceRun]
  · rintro s r s' ih ⟨hblock, rfl⟩ hmiss
    refine missInvariant_round (ih fun scan hscan => hmiss scan ?_) r hblock hmiss
    exact List.mem_append_left _ hscan

/-- While no share is found, no nonce is skipped between scans exactly when
every scan but the first tries none (or comes a multiple of 2³² rounds later,
when the nonce word has come around). -/
theorem noneSkipped_iff {cfg : MinerConfig} {block : List UInt32} {s : MinerState}
    (h : (minerThread cfg block).Reachable s)
    (hmiss : ∀ scan ∈ s.scans, scan.result.rc = 0) :
    NoneSkipped cfg s ↔
      ∀ j scan, s.scans[j]? = some scan → Idle cfg scan ∨ 2 ^ 32 ∣ j :=
  (missInvariant_reachable h hmiss).skipped

/-- The only thread of a miner that hashes to zero, on a block against the
target zero, one nonce a round. -/
def missConfig : MinerConfig := ⟨.little, ⟨fun _ => .replicate 32 0, fun _ _ => .replicate 32 0⟩,
  true, 1, 0⟩

def missRound : Round := ⟨{ Work.zero with data := .replicate 32 1 }, 1, fun _ => false, ⟨[]⟩⟩

def missState : Nat → MinerState
  | 0 => ⟨Work.zero, []⟩
  | k + 1 => minerRound missConfig (missState k) missRound

theorem missState_reachable :
    ∀ k, (minerThread missConfig (List.replicate 19 1)).Reachable (missState k)
  | 0 => .init ⟨by decide, rfl⟩
  | k + 1 => .step (missState_reachable k) ⟨by decide, rfl⟩

theorem noneSkipped_iff_missState :
    NoneSkipped missConfig (missState 2) ↔
      ∀ j scan, (missState 2).scans[j]? = some scan → Idle missConfig scan ∨ 2 ^ 32 ∣ j :=
  noneSkipped_iff (missState_reachable 2) (by decide)

/-- Two rounds try the nonces 0 and 2. -/
theorem noneSkipped_fails_missState :
    ∃ s, (minerThread missConfig (List.replicate 19 1)).Reachable s ∧
      (∀ scan ∈ s.scans, scan.result.rc = 0) ∧ ¬ NoneSkipped missConfig s :=
  ⟨missState 2, missState_reachable 2, by decide, by unfold NoneSkipped; decide⟩

/-! ## Shares found

After a share the nonce word holds the share's bytes in the other order. -/

theorem nonceStride_toNat {n : Nat} (hn : n ≤ 9999) :
    (nonceStride n).toNat = 0xffffffff / n := by
  rw [nonceStride, UInt32.toNat_div, UInt32.toNat_ofNat', Nat.mod_eq_of_lt (by omega)]
  rfl

theorem startNonce_toNat {cfg : MinerConfig} (hn : cfg.optNThreads ≤ 9999)
    (ht : cfg.thrId < cfg.optNThreads) :
    (startNonce cfg).toNat = 0xffffffff / cfg.optNThreads * cfg.thrId := by
  have hle : 0xffffffff / cfg.optNThreads * cfg.thrId ≤ 0xffffffff :=
    (Nat.mul_le_mul_left _ ht.le).trans (Nat.div_mul_le_self _ _)
  rw [startNonce, UInt32.toNat_mul, nonceStride_toNat hn, UInt32.toNat_ofNat',
    Nat.mod_eq_of_lt (show cfg.thrId < 2 ^ 32 by omega), Nat.mod_eq_of_lt (by omega)]

theorem endNonce_toNat {cfg : MinerConfig} (hn : cfg.optNThreads ≤ 9999)
    (ht : cfg.thrId < cfg.optNThreads) :
    (endNonce cfg).toNat = 0xffffffff / cfg.optNThreads * (cfg.thrId + 1) - 0x20 := by
  have hle : 0xffffffff / cfg.optNThreads * (cfg.thrId + 1) ≤ 0xffffffff :=
    (Nat.mul_le_mul_left _ ht).trans (Nat.div_mul_le_self _ _)
  have hstride : 0x20 ≤ 0xffffffff / cfg.optNThreads * (cfg.thrId + 1) := by
    have h32 : 0x20 ≤ 0xffffffff / cfg.optNThreads := by
      rw [Nat.le_div_iff_mul_le (by omega)]
      omega
    exact h32.trans (Nat.le_mul_of_pos_right _ (Nat.succ_pos _))
  have hprod : (nonceStride cfg.optNThreads * UInt32.ofNat (cfg.thrId + 1)).toNat =
      0xffffffff / cfg.optNThreads * (cfg.thrId + 1) := by
    rw [UInt32.toNat_mul, nonceStride_toNat hn, UInt32.toNat_ofNat',
      Nat.mod_eq_of_lt (show cfg.thrId + 1 < 2 ^ 32 by omega), Nat.mod_eq_of_lt (by omega)]
  rw [endNonce, UInt32.toNat_sub_of_le _ _ (by rw [UInt32.le_iff_toNat_le, hprod]; exact hstride),
    hprod]
  rfl

theorem maxNonce_le (cfg : MinerConfig) (nonce : UInt32) (max64 : Int) :
    (maxNonce cfg nonce max64).toNat ≤ (endNonce cfg).toNat := by
  have hend := (endNonce cfg).toNat_lt
  rw [maxNonce]
  generalize hm : (if max64 ≤ 0 then (0x1fffff : Int) else max64) = m
  have hpos : 0 < m := by
    rw [← hm]
    split <;> omega
  split
  · exact Nat.le_refl _
  · next h =>
      rw [toNat_ofInt]
      omega

/-- A thread's nonces: pairwise distinct, and within its range. -/
structure OwnRange (cfg : MinerConfig) (nonces : List UInt32) : Prop where
  nodup : nonces.Nodup
  range : ∀ n ∈ nonces, startNonce cfg ≤ n ∧ n < endNonce cfg

/-- The ranges of two threads have no nonce in common. -/
theorem range_disjoint {cfg cfg' : MinerConfig} (hn : cfg.optNThreads ≤ 9999)
    (hn' : cfg'.optNThreads = cfg.optNThreads) (ht : cfg.thrId < cfg.optNThreads)
    (ht' : cfg'.thrId < cfg.optNThreads) (hne : cfg'.thrId ≠ cfg.thrId) {n : UInt32}
    (h : startNonce cfg ≤ n ∧ n < endNonce cfg) :
    ¬ (startNonce cfg' ≤ n ∧ n < endNonce cfg') := by
  rintro ⟨hlo', hhi'⟩
  obtain ⟨hlo, hhi⟩ := h
  rw [UInt32.le_iff_toNat_le, startNonce_toNat (by omega) (by omega)] at hlo hlo'
  rw [UInt32.lt_iff_toNat_lt, endNonce_toNat (by omega) (by omega)] at hhi hhi'
  rw [hn'] at hlo' hhi'
  generalize 0xffffffff / cfg.optNThreads = q at hlo hhi hlo' hhi'
  rcases Nat.lt_or_gt_of_ne hne with hlt | hgt
  · have := Nat.mul_le_mul_left q (show cfg'.thrId + 1 ≤ cfg.thrId from hlt)
    omega
  · have := Nat.mul_le_mul_left q (show cfg.thrId + 1 ≤ cfg'.thrId from hgt)
    omega

/-- Where a round may go on from: not from the last nonce word there is, and
after a share not from a word that lies behind the share. The share is the
word with its bytes swapped. -/
def ResumesAhead (s : MinerState) : Prop :=
  ∀ scan, s.scans.getLast? = some scan → nonceWord s.work.data ≠ 0xffffffff ∧
    (scan.result.rc ≠ 0 → swab32 (nonceWord s.work.data) ≤ nonceWord s.work.data)

/-- The first nonce that is certainly ahead of all that were tried: the nonce
word, or after a share the share's successor. -/
def ahead (s : MinerState) : Nat :=
  match s.scans.getLast? with
  | none => 0
  | some scan =>
      if scan.result.rc = 0 then (nonceWord s.work.data).toNat
      else (swab32 (nonceWord s.work.data)).toNat + 1

structure ShareInvariant (cfg : MinerConfig) (block : List UInt32) (s : MinerState) : Prop where
  loaded : blockWords s.work.data = block ↔ s.scans ≠ []
  own : OwnRange cfg s.tested
  behind : ∀ n ∈ s.tested, n.toNat < ahead s
  start : s.scans ≠ [] → (startNonce cfg).toNat ≤ ahead s

theorem ShareInvariant.next_nonce {cfg : MinerConfig} {block : List UInt32} {s : MinerState}
    (h : ShareInvariant cfg block s) (hresume : ResumesAhead s) {gWork : Work}
    (hblock : blockWords gWork.data = block) :
    ahead s ≤ (nonceWord (loadWork cfg gWork s.work).data).toNat ∧
      (startNonce cfg).toNat ≤ (nonceWord (loadWork cfg gWork s.work).data).toNat := by
  rw [loadWork_nonce, hblock]
  cases hs : s.scans.getLast? with
  | none =>
      have hnil : s.scans = [] := List.getLast?_eq_none_iff.mp hs
      rw [if_neg (fun hb => (h.loaded.mp hb) hnil), ahead, hs]
      exact ⟨Nat.zero_le _, Nat.le_refl _⟩
  | some scan =>
      have hne : s.scans ≠ [] := by
        rintro hnil
        rw [hnil] at hs
        cases hs
      obtain ⟨hlast, hswap⟩ := hresume scan hs
      have hnext : (nonceWord s.work.data + 1).toNat = (nonceWord s.work.data).toNat + 1 := by
        refine toNat_succ_of_lt (m := 0xffffffff) ?_
        rw [UInt32.lt_iff_toNat_lt]
        have hlt := (nonceWord s.work.data).toNat_lt
        have hne : (nonceWord s.work.data).toNat ≠ 0xffffffff := fun h =>
          hlast (UInt32.toNat_inj.mp h)
        show (nonceWord s.work.data).toNat < 0xffffffff
        omega
      have hahead : ahead s ≤ (nonceWord s.work.data).toNat + 1 := by
        rw [ahead, hs]
        simp only
        split
        · omega
        · next hrc =>
            have := UInt32.le_iff_toNat_le.mp (hswap hrc)
            omega
      have hstart := h.start hne
      rw [if_pos (h.loaded.mpr hne), hnext]
      exact ⟨hahead, hstart.trans hahead⟩

/-- A pipelined round tries a run of nonces below its limit, and its nonce word
tells where that run ended. -/
theorem minerRound_batch {cfg : MinerConfig} (hhost : cfg.host = .little)
    (hbatch : cfg.wantBatchmode = true) (s : MinerState) (r : Round) :
    ∃ m, (minerRound cfg s r).tested =
        s.tested ++ nonceRun (nonceWord (loadWork cfg r.gWork s.work).data) m ∧
      (0 < m → (nonceWord (loadWork cfg r.gWork s.work).data).toNat + m ≤ (endNonce cfg).toNat) ∧
      ahead (minerRound cfg s r) = (nonceWord (loadWork cfg r.gWork s.work).data).toNat + m ∧
      blockWords (minerRound cfg s r).work.data =
        blockWords (loadWork cfg r.gWork s.work).data := by
  have htested := tested_minerRound cfg s r
  have hmax := maxNonce_le cfg (nonceWord (loadWork cfg r.gWork s.work).data) r.max64
  have hend := (endNonce cfg).toNat_lt
  generalize hw : loadWork cfg r.gWork s.work = work at htested hmax ⊢
  generalize hm : maxNonce cfg (nonceWord work.data) r.max64 = max at htested hmax
  obtain ⟨m, hle, hnonces, hdata⟩ := scanhashRandomxBatch_nonces cfg.host cfg.rx r.restart
    work.data work.target max work.rxHash r.rxVm
  have hscan : scanhash cfg r work max = scanhashRandomxBatch cfg.host cfg.rx r.restart
      work.data work.target max work.rxHash r.rxVm := by
    rw [scanhash, if_pos hbatch]
  rw [← hscan] at hnonces hdata
  have hround : minerRound cfg s r = ⟨scannedWork work (scanhash cfg r work max),
      s.scans ++ [⟨nonceWord work.data, max, r.restart 0, scanhash cfg r work max⟩]⟩ := by
    simp only [minerRound, hw, hm]
  have hn := (nonceWord work.data).toNat_lt
  refine ⟨m, by rw [htested, hnonces], by omega, ?_, ?_⟩
  · rw [ahead, hround]
    simp only [List.getLast?_append, List.getLast?_singleton, Option.some_or, scannedWork]
    rcases hdata with ⟨hrc, hdata⟩ | ⟨hrc, hpos, hdata⟩
    · simp only [hrc, hdata, if_true]
      rw [nonceWord_setNonceWord, toNat_add_ofNat (by omega)]
    · simp only [hrc, hdata, hhost]
      rw [if_neg (by decide), nonceWord_setNonceWord, ByteOrder.dec, le32dec_be32enc,
        swab32_swab32, toNat_add_ofNat (by omega)]
      omega
  · rw [hround]
    rcases hdata with ⟨-, hdata⟩ | ⟨-, -, hdata⟩ <;> simp only [scannedWork, hdata, blockWords_set]

theorem shareInvariant_round {cfg : MinerConfig} {block : List UInt32} {s : MinerState}
    (hhost : cfg.host = .little) (hbatch : cfg.wantBatchmode = true)
    (h : ShareInvariant cfg block s) (r : Round) (hblock : blockWords r.gWork.data = block)
    (hresume : ResumesAhead s) : ShareInvariant cfg block (minerRound cfg s r) := by
  obtain ⟨hahead, hstart⟩ := h.next_nonce hresume hblock
  obtain ⟨m, htested, hmax, hahead', hwords⟩ := minerRound_batch hhost hbatch s r
  rw [blockWords_loadWork, hblock] at hwords
  have hend := (endNonce cfg).toNat_lt
  generalize nonceWord (loadWork cfg r.gWork s.work).data = n at hahead hstart htested hmax hahead'
  have hn := n.toNat_lt
  have hnew : ∀ x ∈ nonceRun n m, n.toNat ≤ x.toNat ∧ x.toNat < n.toNat + m := by
    intro x hx
    exact mem_nonceRun (by omega) hx
  refine ⟨⟨fun _ => by simp [minerRound], fun _ => hwords⟩, ⟨?_, ?_⟩, ?_, fun _ => by omega⟩
  · rw [htested, List.nodup_append]
    refine ⟨h.own.nodup, nonceRun_nodup (by omega), ?_⟩
    rintro x hx y hy rfl
    have hold := h.behind x hx
    have := hnew x hy
    omega
  · intro x hx
    rw [htested] at hx
    rcases List.mem_append.mp hx with hx | hx
    · exact h.own.range x hx
    · have := hnew x hx
      rw [UInt32.le_iff_toNat_le, UInt32.lt_iff_toNat_lt]
      omega
  · intro x hx
    rw [htested] at hx
    rcases List.mem_append.mp hx with hx | hx
    · have := h.behind x hx
      omega
    · have := hnew x hx
      omega

theorem shareInvariant_reachable {cfg : MinerConfig} {block : List UInt32} {s : MinerState}
    (hhost : cfg.host = .little) (hbatch : cfg.wantBatchmode = true)
    (h : ((minerThread cfg block).guard fun s _ => ResumesAhead s).Reachable s) :
    ShareInvariant cfg block s := by
  refine h.invariant ?_ ?_
  · rintro s ⟨hblock, hscans⟩
    refine ⟨by simp [hblock, hscans], ?_, ?_, by simp [hscans]⟩
    · constructor <;> simp [MinerState.tested, hscans]
    · simp [MinerState.tested, hscans]
  · rintro s r s' h ⟨hresume, hblock, rfl⟩
    exact shareInvariant_round hhost hbatch h r hblock hresume

/-- In every run whose rounds go on ahead of what they found, a thread tries no
nonce twice and none outside its range, so no two threads try the same one. -/
theorem ownRange_of_resumesAhead {cfg : MinerConfig} {block : List UInt32} {s : MinerState}
    (hhost : cfg.host = .little) (hbatch : cfg.wantBatchmode = true)
    (hn : cfg.optNThreads ≤ 9999) (ht : cfg.thrId < cfg.optNThreads)
    (h : ((minerThread cfg block).guard fun s _ => ResumesAhead s).Reachable s) :
    OwnRange cfg s.tested ∧
      ∀ cfg' : MinerConfig, cfg'.optNThreads = cfg.optNThreads →
        cfg'.thrId < cfg.optNThreads → cfg'.thrId ≠ cfg.thrId →
        ∀ n ∈ s.tested, ¬ (startNonce cfg' ≤ n ∧ n < endNonce cfg') := by
  have hown := (shareInvariant_reachable hhost hbatch h).own
  exact ⟨hown, fun cfg' hn' ht' hne n hmem =>
    range_disjoint hn hn' ht ht' hne (hown.range n hmem)⟩

/-- The second thread, with a target that every nonce meets. -/
def hitConfig (optNThreads : Nat) : MinerConfig :=
  ⟨.little, ⟨fun _ => .replicate 32 0, fun _ _ => .replicate 32 0⟩, true, optNThreads, 1⟩

def hitRound : Round :=
  ⟨{ Work.zero with data := .replicate 32 1, target := .replicate 8 1 }, 1, fun _ => false, ⟨[]⟩⟩

def hitState (cfg : MinerConfig) : Nat → MinerState
  | 0 => ⟨Work.zero, []⟩
  | k + 1 => minerRound cfg (hitState cfg k) hitRound

theorem hitState_reachable (cfg : MinerConfig) :
    ∀ k, (minerThread cfg (List.replicate 19 1)).Reachable (hitState cfg k)
  | 0 => .init ⟨show blockWords Work.zero.data ≠ List.replicate 19 1 from by decide, rfl⟩
  | k + 1 => .step (hitState_reachable cfg k) ⟨by decide, rfl⟩

/-- The first nonce of the second thread of 255 is 0x01010101, which is a share and the
same with its bytes swapped, so that the second round begins behind it. -/
theorem hitState_resumesAhead :
    ((minerThread (hitConfig 255) (List.replicate 19 1)).guard
      fun s _ => ResumesAhead s).Reachable (hitState (hitConfig 255) 2) := by
  have hfirst : ResumesAhead (hitState (hitConfig 255) 0) := by
    intro scan h
    cases h
  have hsecond : ResumesAhead (hitState (hitConfig 255) 1) := by
    intro scan _
    have hnonce : nonceWord (hitState (hitConfig 255) 1).work.data = 0x01010101 := by
      decide +kernel
    rw [hnonce]
    exact ⟨by decide, fun _ => by decide⟩
  exact .step (.step (.init ⟨by decide, rfl⟩) ⟨hfirst, by decide, rfl⟩) ⟨hsecond, by decide, rfl⟩

theorem ownRange_hitState :
    OwnRange (hitConfig 255) (hitState (hitConfig 255) 2).tested ∧
      ∀ cfg' : MinerConfig, cfg'.optNThreads = (hitConfig 255).optNThreads →
        cfg'.thrId < (hitConfig 255).optNThreads → cfg'.thrId ≠ (hitConfig 255).thrId →
        ∀ n ∈ (hitState (hitConfig 255) 2).tested, ¬ (startNonce cfg' ≤ n ∧ n < endNonce cfg') :=
  ownRange_of_resumesAhead rfl rfl (by decide) (by decide) hitState_resumesAhead

/-- A share at the first nonce of the second thread of seven, 0x24924924, sends the next
round to 0x24499225, which is another thread's. -/
theorem ownRange_fails_hitState :
    ∃ s, (minerThread (hitConfig 7) (List.replicate 19 1)).Reachable s ∧
      ¬ OwnRange (hitConfig 7) s.tested := by
  have htested : (hitState (hitConfig 7) 2).tested = [0x24924924, 0x24499225] := by decide +kernel
  refine ⟨hitState (hitConfig 7) 2, hitState_reachable (hitConfig 7) 2, fun h => ?_⟩
  have hlo := (h.range 0x24499225 (by rw [htested]; decide)).1
  exact absurd hlo (by decide)

end AlphaMiner
