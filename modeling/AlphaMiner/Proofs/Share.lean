import AlphaMiner.Proofs.GbtSpec
import AlphaMiner.Proofs.JobLayout
import AlphaMiner.Proofs.Solo

/-!
# The pool can rebuild a share

`poolHeader` is the pool's side of the protocol: from the job it announced and
the strings of a `mining.submit` it puts the header together again, reversing
the bytes of the small fields and the bytes of each group of the previous hash.
The miner gets to its header another way, by decoding the job into words,
hashing what it has laid out, and encoding the words. `pool_rebuilds_share`
says that the two meet: for a well-formed job under one subscription, whatever
the second extra nonce has been counted up to and whichever nonce wins, the
header the pool rebuilds is the one that was hashed.
-/

namespace AlphaMiner

open Lib

/-! ## The pool's rule -/

/-- Reverses the bytes of each group of four. -/
def swapGroups (p : Bytes) : Bytes :=
  (List.finRange 8).flatMap fun i : Fin 8 => (slice p (4 * i.val) 4).reverse

/-- The header of a share, from the announced job, the connection's extra nonce
and the strings of a submission. -/
def poolHeader (sha256d : Bytes → Hash) (n : NotifyParams) (xnonce1 : Bytes)
    (xnonce2str ntimestr noncestr : Bytes) : Option Bytes := do
  let coinb1 ← unhex n.coinb1
  let xnonce2 ← unhex xnonce2str
  let coinb2 ← unhex n.coinb2
  let branches ← n.merkle.mapM unhex
  let root := branches.foldl (fun root branch => sha256d (root.toList ++ branch))
    (sha256d (coinb1 ++ xnonce1 ++ xnonce2 ++ coinb2))
  let version ← unhex n.version
  let prevhash ← unhex n.prevhash
  let ntime ← unhex ntimestr
  let nbits ← unhex n.nbits
  let nonce ← unhex noncestr
  some (version.reverse ++ swapGroups prevhash ++ root.toList ++ ntime.reverse ++
    nbits.reverse ++ nonce.reverse)

/-- Every parameter is hexadecimal. -/
structure WellFormed (n : NotifyParams) : Prop where
  prevhash : (unhex n.prevhash).isSome = true
  coinb1 : (unhex n.coinb1).isSome = true
  coinb2 : (unhex n.coinb2).isSome = true
  merkle : ∀ s ∈ n.merkle, (unhex s).isSome = true
  version : (unhex n.version).isSome = true
  nbits : (unhex n.nbits).isSome = true
  ntime : (unhex n.ntime).isSome = true

/-! ## The job -/

/-- What the parser of a notification checks: the lengths. -/
theorem notifyParams_lengths {params : Option Json} {n : NotifyParams}
    (h : notifyParams params = some n) :
    n.prevhash.length = 64 ∧ n.version.length = 8 ∧ n.nbits.length = 8 ∧ n.ntime.length = 8 ∧
      ∀ s ∈ n.merkle, s.length = 64 := by
  unfold notifyParams at h
  obtain ⟨arr, -, h⟩ := Option.bind_eq_some_iff.mp h
  cases arr with
  | array branch =>
      obtain ⟨jobId, -, h⟩ := Option.bind_eq_some_iff.mp h
      obtain ⟨prevhash, -, h⟩ := Option.bind_eq_some_iff.mp h
      obtain ⟨coinb1, -, h⟩ := Option.bind_eq_some_iff.mp h
      obtain ⟨coinb2, -, h⟩ := Option.bind_eq_some_iff.mp h
      obtain ⟨version, -, h⟩ := Option.bind_eq_some_iff.mp h
      obtain ⟨nbits, -, h⟩ := Option.bind_eq_some_iff.mp h
      obtain ⟨ntime, -, h⟩ := Option.bind_eq_some_iff.mp h
      split at h
      · cases h
      · next hlen =>
          obtain ⟨merkle, -, h⟩ := Option.bind_eq_some_iff.mp h
          split at h
          · next hmerkle =>
              cases h
              simp only [not_or, not_not] at hlen
              refine ⟨hlen.1, hlen.2.1, hlen.2.2.1, hlen.2.2.2, fun s hs => ?_⟩
              simpa using List.all_eq_true.mp hmerkle s hs
          · cases h
  | _ => cases h

/-- The job's fields are what the strings stand for. -/
structure JobDecodes (n : NotifyParams) (job : StratumJob) : Prop where
  jobId : job.jobId = some n.jobId
  prevhash : unhex n.prevhash = some job.prevhash.toList
  merkle : n.merkle.mapM unhex = some (job.merkle.map Vector.toList)
  version : unhex n.version = some job.version.toList
  nbits : unhex n.nbits = some job.nbits.toList
  ntime : unhex n.ntime = some job.ntime.toList

theorem unhex_hex2binArray {k : Nat} {s : Bytes} (p : Vector UInt8 k)
    (h : (unhex s).isSome = true) (hlen : s.length = 2 * k) :
    unhex s = some (hex2binArray p s).toList := by
  obtain ⟨q, hq⟩ := Option.isSome_iff_exists.mp h
  have hq' := length_of_unhex hq
  rw [hex2binArray_unhex p hq (by omega), hq]

theorem mapM_unhex {l : List Bytes} (p : Vector UInt8 32)
    (h : ∀ s ∈ l, (unhex s).isSome = true) (hlen : ∀ s ∈ l, s.length = 64) :
    l.mapM unhex = some ((l.map (hex2binArray p)).map Vector.toList) := by
  induction l with
  | nil => rfl
  | cons s l ih =>
      have hs := unhex_hex2binArray p (h s List.mem_cons_self) (hlen s List.mem_cons_self)
      rw [List.mapM_cons, hs, ih (fun t ht => h t (List.mem_cons_of_mem s ht))
        (fun t ht => hlen t (List.mem_cons_of_mem s ht))]
      rfl

theorem jobDecodes_notify (heap : Nat → UInt8) {params : Option Json} {n : NotifyParams}
    (hn : notifyParams params = some n) (hwf : WellFormed n) (ctx : StratumCtx) :
    JobDecodes n (notifyJob heap n ctx) := by
  obtain ⟨hprevhash, hversion, hnbits, hntime, hmerkle⟩ := notifyParams_lengths hn
  exact
    { jobId := rfl
      prevhash := unhex_hex2binArray _ hwf.prevhash hprevhash
      merkle := mapM_unhex _ hwf.merkle hmerkle
      version := unhex_hex2binArray _ hwf.version hversion
      nbits := unhex_hex2binArray _ hwf.nbits hnbits
      ntime := unhex_hex2binArray _ hwf.ntime hntime }

/-! ## The header -/

/-- The bytes in front of the nonce, as the job spells them. -/
theorem headerFront_job (sha256d : Bytes → Hash) (job : StratumJob) :
    headerFront (jobData sha256d job) =
      job.version.toList.reverse ++ swapGroups job.prevhash.toList ++
        (jobMerkleRoot sha256d job).toList ++ job.ntime.toList.reverse ++
        job.nbits.toList.reverse := by
  have hgroups : ((List.finRange 8).map fun i : Fin 8 =>
      le32dec (slice job.prevhash.toList (4 * i.val) 4)).flatMap be32enc =
        swapGroups job.prevhash.toList := by
    rw [List.flatMap_map, swapGroups]
    congr 1
    funext i
    apply be32enc_le32dec
    rw [slice, List.length_take, List.length_drop, Vector.length_toList]
    omega
  rw [headerFront, jobData, headerWords_front, List.flatMap_cons, List.flatMap_append,
    List.flatMap_append, hgroups, flatMap_be32enc_be32dec (by simp)]
  simp only [List.flatMap_cons, List.flatMap_nil, List.append_nil]
  rw [be32enc_le32dec (by simp), be32enc_le32dec (by simp), be32enc_le32dec (by simp)]
  simp only [List.append_assoc]

/-- The context with the second extra nonce at `x₂`. -/
def setXnonce2 (ctx : StratumCtx) (x₂ : Bytes) : StratumCtx :=
  { ctx with job := { ctx.job with coinbase := store ctx.job.coinbase ctx.job.xnonce2 x₂ } }

/-- The pool's header for a share, when its strings stand for the job's own
extra nonce, the job's time and the nonce. -/
theorem poolHeader_job {sha256d : Bytes → Hash} {n : NotifyParams} {ctx : StratumCtx}
    {x₂ : Bytes} (hwf : WellFormed n) (hjob : JobDecodes n ctx.job) (hwindow : Window n ctx x₂)
    (nonce : UInt32) :
    poolHeader sha256d n ctx.xnonce1 (bin2hex x₂) (bin2hex ctx.job.ntime.toList)
        (bin2hex (be32enc nonce)) =
      some (headerFront (jobData sha256d ctx.job) ++ le32enc nonce) := by
  obtain ⟨c₁, c₂, hcoinbase, -, -, hd₁, hd₂⟩ := hwindow
  obtain ⟨q₁, hq₁⟩ := Option.isSome_iff_exists.mp hwf.coinb1
  obtain ⟨q₂, hq₂⟩ := Option.isSome_iff_exists.mp hwf.coinb2
  obtain rfl := hd₁.value q₁ hq₁
  obtain rfl := hd₂.value q₂ hq₂
  have hroot : (ctx.job.merkle.map Vector.toList).foldl
      (fun root branch => sha256d (root.toList ++ branch))
      (sha256d (c₁ ++ ctx.xnonce1 ++ x₂ ++ c₂)) = jobMerkleRoot sha256d ctx.job := by
    rw [List.foldl_map, jobMerkleRoot, hcoinbase]
  rw [headerFront_job, le32enc_eq_reverse]
  simp only [poolHeader, hq₁, hq₂, unhex_bin2hex, hjob.merkle, hjob.version, hjob.prevhash,
    hjob.nbits, bind, Option.bind_some, hroot]

/-- What an attempt sends to the pool. -/
theorem submitUpstreamWork_share {host : ByteOrder} {g : SubmitGlobals} {up : Upstream}
    {work : Work} {jobId x₂ : Bytes} (hpool : g.haveStratum = true)
    (hjob : work.jobId = some jobId) (hx₂ : work.xnonce2 = some x₂) :
    ∃ call, submitUpstreamWork host g up work = some call ∧
      (stale g work = false → call.sent = some (miningSubmitReq g.rpcUser jobId (bin2hex x₂)
        (bin2hex (le32enc (timeWord work.data))) (bin2hex (le32enc (nonceWord work.data))))) := by
  cases hstale : stale g work with
  | true => exact ⟨_, by rw [submitUpstreamWork, if_pos hstale], fun h => by cases h⟩
  | false =>
      refine ⟨{ rc := up.sendOk, work := work, shareResult := none
                sent := some (miningSubmitReq g.rpcUser jobId (bin2hex x₂)
                  (bin2hex (le32enc (timeWord work.data)))
                  (bin2hex (le32enc (nonceWord work.data)))) },
        ?_, fun _ => rfl⟩
      simp only [submitUpstreamWork, hstale, hpool, hjob, hx₂, Bool.false_eq_true, if_false,
        if_true, Option.getD_some]

/-- For a well-formed job, the subscription it came under, any value of the
second extra nonce and any share found on the work of the two: the strings of
the submission let the pool rebuild the eighty bytes that were hashed. -/
theorem pool_rebuilds_share {sha256d : Bytes → Hash} {heap : Nat → UInt8} {params : Option Json}
    {n : NotifyParams} (hn : notifyParams params = some n) (hwf : WellFormed n)
    (ctx : StratumCtx) (x₂ : Bytes) (hx₂ : x₂.length = ctx.xnonce2Size) (old : Work)
    (cfg : MinerConfig) (hhost : cfg.host = .little) (r : Round) (start max : UInt32)
    (g : SubmitGlobals) (hpool : g.haveStratum = true) (up : Upstream) :
    let notified := (stratumNotify heap params ctx).2
    ∃ ctx' work, stratumGenWork sha256d cfg.host (setXnonce2 notified x₂) old =
        some (ctx', work) ∧
      let loaded := { work with data := setNonceWord work.data start }
      let res := scanhash cfg r loaded max
      let solved := workCopy (scannedWork loaded res)
      res.rc = 1 →
      ∃ call hdr ntimestr noncestr, submitUpstreamWork cfg.host g up solved = some call ∧
        (stale g solved = false → call.sent =
          some (miningSubmitReq g.rpcUser n.jobId (bin2hex x₂) ntimestr noncestr)) ∧
        poolHeader sha256d n ctx.xnonce1 (bin2hex x₂) ntimestr noncestr = some hdr ∧
        hdr.length = 80 ∧
        res.calls.getLast? = some (hdr ++ List.replicate 32 0, res.outRxHash) := by
  intro notified
  have hnotified : notified = { ctx with job := notifyJob heap n ctx } := by
    simp only [notified, stratumNotify, hn]
  obtain ⟨y₂, hwindow⟩ := window_notify heap n ctx
  rw [← hnotified] at hwindow
  have hsize : x₂.length = y₂.length := by
    obtain ⟨_, _, -, -, hy₂, -, -⟩ := hwindow
    rw [hx₂, hy₂, hnotified]
  have hwindow' : Window n (setXnonce2 notified x₂) x₂ := hwindow.set hsize
  have hjob : JobDecodes n (setXnonce2 notified x₂).job := by
    have h := jobDecodes_notify heap hn hwf ctx
    rw [hnotified]
    exact ⟨h.jobId, h.prevhash, h.merkle, h.version, h.nbits, h.ntime⟩
  have hxnonce1 : (setXnonce2 notified x₂).xnonce1 = ctx.xnonce1 := by
    rw [hnotified]
    rfl
  generalize setXnonce2 notified x₂ = sctx at hwindow' hjob hxnonce1 ⊢
  have hgen : ∃ ctx' work, stratumGenWork sha256d cfg.host sctx old = some (ctx', work) := by
    rw [stratumGenWork, genWorkLocked, hjob.jobId, hwindow'.slice]
    exact ⟨_, _, rfl⟩
  obtain ⟨ctx', work, hgen⟩ := hgen
  refine ⟨ctx', work, hgen, ?_⟩
  intro loaded res solved hrc
  obtain ⟨jobId, xnonce2, hid, hslice, -, hwid, hwx₂, hdata, -⟩ := stratumGenWork_some hgen
  obtain rfl : n.jobId = jobId := Option.some.inj (hjob.jobId.symm.trans hid)
  obtain rfl : x₂ = xnonce2 := Option.some.inj (hwindow'.slice.symm.trans hslice)
  obtain ⟨nonce, calls, hres, hlast, -⟩ := scanhash_found hrc
  rw [hhost] at hres
  have hsolved : solved.data = setNonceWord (setNonceWord work.data start) (swab32 nonce) :=
    congrArg ScanResult.pdata hres
  have hnonce : le32enc (nonceWord solved.data) = be32enc nonce := by
    simp only [hsolved]
    rw [nonceWord_setNonceWord, le32enc_swab32]
  have hntime : le32enc (timeWord solved.data) = sctx.job.ntime.toList := by
    simp only [hsolved]
    rw [timeWord_setNonceWord, timeWord_setNonceWord]
    simp only [hdata, jobData]
    rw [headerWords_ntime, le32enc_le32dec (by simp)]
  obtain ⟨call, hcall, hsent⟩ := @submitUpstreamWork_share cfg.host g up solved n.jobId x₂ hpool
    hwid hwx₂
  rw [hntime, hnonce] at hsent
  have hrebuilt := @poolHeader_job sha256d n sctx x₂ hwf hjob hwindow' nonce
  rw [hxnonce1] at hrebuilt
  refine ⟨call, _, _, _, hcall, hsent, hrebuilt, by simp, ?_⟩
  rw [show res.calls = calls from congrArg ScanResult.calls hres,
    show res.outRxHash = nonceHash cfg.rx loaded.data nonce from
      congrArg ScanResult.outRxHash hres, hlast, nonceHeader_eq,
    show headerFront loaded.data = headerFront work.data from headerFront_set _ _, hdata]

/-- A job with one branch. -/
def sampleParams : NotifyParams where
  jobId := ascii "01"
  prevhash := List.replicate 64 49
  coinb1 := ascii "0102"
  coinb2 := ascii "03"
  merkle := [List.replicate 64 50]
  version := ascii "20000000"
  nbits := ascii "1d00ffff"
  ntime := ascii "65d5c0f0"
  clean := true

def sampleNotify : Json := .array
  [.string sampleParams.jobId, .string sampleParams.prevhash, .string sampleParams.coinb1,
    .string sampleParams.coinb2, .array (sampleParams.merkle.map .string),
    .string sampleParams.version, .string sampleParams.nbits, .string sampleParams.ntime,
    .bool true]

def sampleCtx : StratumCtx :=
  { StratumCtx.zero with xnonce1 := [1, 2], xnonce2Size := 4, nextDiff := 1 }

def sampleRound : Round := ⟨Work.zero, 1, fun _ => false, ⟨[]⟩⟩

def sampleGlobals : SubmitGlobals := ⟨[], true, true, Work.zero⟩

def sampleGen : Option (StratumCtx × Work) :=
  stratumGenWork sampleHash .little
    (setXnonce2 (stratumNotify (fun _ => 0) (some sampleNotify) sampleCtx).2 [9, 0, 0, 0]) Work.zero

theorem pool_rebuilds_share_sample :
    ∃ ctx' work, sampleGen = some (ctx', work) ∧
      let loaded := { work with data := setNonceWord work.data 7 }
      let res := scanhash soloConfig sampleRound loaded 9
      let solved := workCopy (scannedWork loaded res)
      res.rc = 1 ∧
      ∃ call hdr ntimestr noncestr,
        submitUpstreamWork .little sampleGlobals ⟨true, none⟩ solved = some call ∧
        (stale sampleGlobals solved = false → call.sent =
          some (miningSubmitReq [] (ascii "01") (bin2hex [9, 0, 0, 0]) ntimestr noncestr)) ∧
        poolHeader sampleHash sampleParams [1, 2] (bin2hex [9, 0, 0, 0]) ntimestr noncestr =
          some hdr ∧
        hdr.length = 80 ∧
        res.calls.getLast? = some (hdr ++ List.replicate 32 0, res.outRxHash) := by
  have hn : notifyParams (some sampleNotify) = some sampleParams := by rfl
  have hwf : WellFormed sampleParams := by
    constructor <;> decide +kernel
  obtain ⟨ctx', work, hgen, h⟩ := @pool_rebuilds_share sampleHash (fun _ => 0)
    (some sampleNotify) sampleParams hn hwf sampleCtx [9, 0, 0, 0] rfl Work.zero soloConfig rfl
    sampleRound 7 9 sampleGlobals rfl ⟨true, none⟩
  have hgen' : sampleGen = some (ctx', work) := hgen
  have hfound : ∀ p ∈ sampleGen, (scanhash soloConfig sampleRound
      { p.2 with data := setNonceWord p.2.data 7 } 9).rc = 1 := by decide +kernel
  have hrc := hfound (ctx', work) hgen'
  exact ⟨ctx', work, hgen', hrc, h hrc⟩

end AlphaMiner
