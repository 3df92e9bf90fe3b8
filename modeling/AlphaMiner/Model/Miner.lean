import AlphaMiner.Lib.System
import AlphaMiner.Model.Work

/-!
# The loop of a miner thread (`miner_thread`)

One round of the loop: take over the current work or go on with the old one,
work out how far to scan, scan, and hand a share on. Times and hash rates only
enter through `max64`, the number of nonces a round is meant to take, so a round
is given by the work it finds in `g_work`, by `max64` as it was computed, and by
the schedule of the restart flag. Refilling `g_work` is the business of the
fillers and of the other threads; here it is whatever it is.

The RandomX key protocol between the loop head and the scan is a file of its
own.
-/

namespace AlphaMiner

open Lib

/-- What a miner thread does not change: its machine, its options, its number. -/
structure MinerConfig where
  host : ByteOrder
  rx : RandomX
  wantBatchmode : Bool
  optNThreads : Nat
  thrId : Nat

/-- What one round finds. -/
structure Round where
  gWork : Work
  max64 : Int
  restart : Nat → Bool
  rxVm : RandomxVm

/-- The share of the nonces that one thread gets, `0xffffffffU / opt_n_threads`. -/
def nonceStride (optNThreads : Nat) : UInt32 := 0xffffffff / UInt32.ofNat optNThreads

def startNonce (cfg : MinerConfig) : UInt32 :=
  nonceStride cfg.optNThreads * UInt32.ofNat cfg.thrId

def endNonce (cfg : MinerConfig) : UInt32 :=
  nonceStride cfg.optNThreads * UInt32.ofNat (cfg.thrId + 1) - 0x20

/-- The words `memcmp(work.data, g_work.data, 76)` looks at. -/
def blockWords (data : Vector UInt32 32) : List UInt32 := data.toList.take 19

/-- Takes over a new block at the thread's first nonce, or goes to the next
nonce of the old one. -/
def loadWork (cfg : MinerConfig) (gWork work : Work) : Work :=
  if blockWords work.data ≠ blockWords gWork.data then
    let work := workCopy gWork
    { work with data := setNonceWord work.data (startNonce cfg) }
  else { work with data := setNonceWord work.data (nonceWord work.data + 1) }

def maxNonce (cfg : MinerConfig) (nonce : UInt32) (max64 : Int) : UInt32 :=
  let max64 := if max64 ≤ 0 then 0x1fffff else max64
  if (nonce.toNat : Int) + max64 > (endNonce cfg).toNat then endNonce cfg
  else UInt32.ofInt (nonce.toNat + max64)

def scanhash (cfg : MinerConfig) (r : Round) (work : Work) (max : UInt32) : ScanResult :=
  if cfg.wantBatchmode then
    scanhashRandomxBatch cfg.host cfg.rx r.restart work.data work.target max work.rxHash r.rxVm
  else
    scanhashRandomx cfg.host cfg.rx r.restart work.data work.target max work.rxHash r.rxVm

/-- The record behind a scan, which writes its nonce word and its hash. -/
def scannedWork (work : Work) (res : ScanResult) : Work :=
  { work with data := res.pdata, rxHash := res.outRxHash }

/-- What a round has done: the nonce and the limit it scanned from and to,
whether the flag stopped it before its first hash, and the scan's answer. -/
structure Scan where
  nonce : UInt32
  max : UInt32
  stopped : Bool
  result : ScanResult

/-- The thread's record, and for every round so far what it has done. -/
structure MinerState where
  work : Work
  scans : List Scan

def minerRound (cfg : MinerConfig) (s : MinerState) (r : Round) : MinerState :=
  let work := loadWork cfg r.gWork s.work
  let max := maxNonce cfg (nonceWord work.data) r.max64
  let result := scanhash cfg r work max
  { work := scannedWork work result
    scans := s.scans ++ [⟨nonceWord work.data, max, r.restart 0, result⟩] }

/-- The loop while `g_work` holds one block: every run starts on another record
and takes the block over in its first round. -/
def minerThread (cfg : MinerConfig) (block : List UInt32) : Lts MinerState Round where
  init s := blockWords s.work.data ≠ block ∧ s.scans = []
  next s r s' := blockWords r.gWork.data = block ∧ s' = minerRound cfg s r

end AlphaMiner
