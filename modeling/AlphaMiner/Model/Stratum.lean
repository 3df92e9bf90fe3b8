import AlphaMiner.Model.GbtWork

/-!
# The stratum session (`util.c`, `stratum_gen_work`)

`StratumCtx` is what a connection to a pool knows: the subscription, which says
how large the two extra nonces are, and the last job. The job's coinbase is one
block of bytes laid out when the job arrives, and `xnonce2` points into it; the
pointer is an offset here.

The layout is computed by `stratum_notify` and used by `stratum_gen_work`, and
between the two the subscription may have changed. `stratum_gen_work` trusts it
all the same, so its accesses are checked in the model, and a context they do
not fit has no result; neither has a context without a job, whose id would be
read through `NULL`.

Decoded hexadecimal is not checked by `stratum_notify`. Whatever `hex2bin`
leaves in the buffer is what the job gets, so the old contents of every buffer
are there to be left.
-/

namespace AlphaMiner

open Lib

structure StratumJob where
  jobId : Option Bytes
  prevhash : Vector UInt8 32
  coinbase : Bytes
  xnonce2 : Nat
  merkle : List (Vector UInt8 32)
  version : Vector UInt8 4
  nbits : Vector UInt8 4
  ntime : Vector UInt8 4
  clean : Bool
  diff : Rat

structure StratumCtx where
  sessionId : Option Bytes
  xnonce1 : Bytes
  xnonce2Size : Nat
  nextDiff : Rat
  job : StratumJob

/-- The context as the program starts with it. -/
def StratumCtx.zero : StratumCtx where
  sessionId := none
  xnonce1 := []
  xnonce2Size := 0
  nextDiff := 0
  job :=
    { jobId := none, prevhash := .replicate 32 0, coinbase := [], xnonce2 := 0
      merkle := [], version := .replicate 4 0, nbits := .replicate 4 0
      ntime := .replicate 4 0, clean := false, diff := 0 }

/-! ## `mining.subscribe` -/

def lowerAscii (c : UInt8) : UInt8 := if 65 ≤ c && c ≤ 90 then c + 32 else c

def getStratumSessionId (val : Json) : Option Bytes :=
  match jsonArrayGet (some val) 0 with
  | some (.array elems) => go elems
  | _ => none
where
  go : List Json → Option Bytes
    | [] => none
    | arr :: rest =>
        match arr with
        | .array _ =>
            match jsonStringValue (jsonArrayGet (some arr) 0) with
            | none => go rest
            | some notify =>
                if notify.map lowerAscii = ascii "mining.notify" then
                  jsonStringValue (jsonArrayGet (some arr) 1)
                else go rest
        | _ => none

/-- What a reply to `mining.subscribe` makes of the context. -/
def subscribeReply (heap : Nat → UInt8) (val : Option Json) (ctx : StratumCtx) :
    Option StratumCtx :=
  match jsonObjectGet val "result", jsonObjectGet val "error" with
  | some res, err =>
      if jsonIsNull (some res) || (err.isSome && !jsonIsNull err) then none
      else
        match jsonStringValue (jsonArrayGet (some res) 1) with
        | none => none
        | some xnonce1 =>
            let xn2Size := (jsonIntegerValue (jsonArrayGet (some res) 2)).bmod (2 ^ 32)
            if xn2Size ≤ 0 ∨ xn2Size > 100 then none
            else
              let size := xnonce1.length / 2
              some { ctx with
                sessionId := getStratumSessionId res
                xnonce1 := (hex2bin (malloc heap size) (some xnonce1) size).2
                xnonce2Size := xn2Size.toNat
                nextDiff := 1 }
  | none, _ => none

/-- The function asks a second time, without naming itself, when a line came
back and was no use. A reply is `none` where no line came at all, and what the
line parses to otherwise. -/
def stratumSubscribe (heap : Nat → UInt8) (first second : Option (Option Json))
    (ctx : StratumCtx) : Bool × StratumCtx :=
  match first with
  | none => (false, ctx)
  | some val =>
      match subscribeReply heap val ctx with
      | some ctx => (true, ctx)
      | none =>
          match second.bind fun val => subscribeReply heap val ctx with
          | some ctx => (true, ctx)
          | none => (false, ctx)

/-! ## `mining.notify` -/

/-- The parameters of a notification, as the strings they are. -/
structure NotifyParams where
  jobId : Bytes
  prevhash : Bytes
  coinb1 : Bytes
  coinb2 : Bytes
  merkle : List Bytes
  version : Bytes
  nbits : Bytes
  ntime : Bytes
  clean : Bool

/-- Reads the parameters and refuses those of the wrong kind or length. -/
def notifyParams (params : Option Json) : Option NotifyParams := do
  let .array branch ← jsonArrayGet params 4 | none
  let jobId ← jsonStringValue (jsonArrayGet params 0)
  let prevhash ← jsonStringValue (jsonArrayGet params 1)
  let coinb1 ← jsonStringValue (jsonArrayGet params 2)
  let coinb2 ← jsonStringValue (jsonArrayGet params 3)
  let version ← jsonStringValue (jsonArrayGet params 5)
  let nbits ← jsonStringValue (jsonArrayGet params 6)
  let ntime ← jsonStringValue (jsonArrayGet params 7)
  let clean := jsonIsTrue (jsonArrayGet params 8)
  if prevhash.length ≠ 64 ∨ version.length ≠ 8 ∨ nbits.length ≠ 8 ∨ ntime.length ≠ 8 then none
  else
    let merkle ← branch.mapM fun s => jsonStringValue (some s)
    if merkle.all fun s => s.length = 64 then
      some { jobId, prevhash, coinb1, coinb2, merkle, version, nbits, ntime, clean }
    else none

/-- `hex2bin` into part of a buffer. -/
def hex2binAt (buf : Bytes) (off : Nat) (hexstr : Bytes) (len : Nat) : Bytes :=
  store buf off (hex2bin (slice buf off len) (some hexstr) len).2

/-- The coinbase of a job: the two halves the pool sent around the two extra
nonces, the second of them cleared for a new job and otherwise whatever lies
where it now begins. -/
def jobCoinbase (heap : Nat → UInt8) (n : NotifyParams) (ctx : StratumCtx) : Bytes :=
  let coinb1Size := n.coinb1.length / 2
  let coinb2Size := n.coinb2.length / 2
  let xnonce1Size := ctx.xnonce1.length
  let xnonce2 := coinb1Size + xnonce1Size
  let coinbase := realloc heap ctx.job.coinbase
    (coinb1Size + xnonce1Size + ctx.xnonce2Size + coinb2Size)
  let coinbase := hex2binAt coinbase 0 n.coinb1 coinb1Size
  let coinbase := store coinbase coinb1Size ctx.xnonce1
  let coinbase :=
    if ctx.job.jobId ≠ some n.jobId then
      store coinbase xnonce2 (List.replicate ctx.xnonce2Size 0)
    else coinbase
  hex2binAt coinbase (xnonce2 + ctx.xnonce2Size) n.coinb2 coinb2Size

def notifyJob (heap : Nat → UInt8) (n : NotifyParams) (ctx : StratumCtx) : StratumJob where
  jobId := some n.jobId
  prevhash := hex2binArray ctx.job.prevhash n.prevhash
  coinbase := jobCoinbase heap n ctx
  xnonce2 := n.coinb1.length / 2 + ctx.xnonce1.length
  merkle := n.merkle.map (hex2binArray (Vector.ofFn fun i => heap i))
  version := hex2binArray ctx.job.version n.version
  nbits := hex2binArray ctx.job.nbits n.nbits
  ntime := hex2binArray ctx.job.ntime n.ntime
  clean := n.clean
  diff := ctx.nextDiff

def stratumNotify (heap : Nat → UInt8) (params : Option Json) (ctx : StratumCtx) :
    Bool × StratumCtx :=
  match notifyParams params with
  | none => (false, ctx)
  | some n => (true, { ctx with job := notifyJob heap n ctx })

def stratumSetDifficulty (params : Option Json) (ctx : StratumCtx) : Bool × StratumCtx :=
  let diff := jsonNumberValue (jsonArrayGet params 0)
  if diff = 0 then (false, ctx) else (true, { ctx with nextDiff := diff })

/-! ## Work from a job -/

/-- `for (i = 0; i < n && !++a[i]; i++)`, a little-endian increment. -/
def incBytes : Bytes → Bytes
  | [] => []
  | b :: rest => if b + 1 = 0 then (b + 1) :: incBytes rest else (b + 1) :: rest

def jobMerkleRoot (sha256d : Bytes → Hash) (job : StratumJob) : Hash :=
  job.merkle.foldl (fun root branch => sha256d (root.toList ++ branch.toList))
    (sha256d job.coinbase)

def diffToTarget.loop : Nat → Rat → Nat × Rat
  | 0, diff => (0, diff)
  | k + 1, diff => if diff > 1 then diffToTarget.loop k (diff / 4294967296) else (k + 1, diff)

/-- A real is converted to a 64-bit word by truncation. -/
def diffToTarget (diff : Rat) : Vector UInt32 8 :=
  let (k, diff) := diffToTarget.loop 6 diff
  let m := UInt64.ofNat (4294901760 / diff).floor.toNat
  if m = 0 ∧ k = 6 then .replicate 8 0xffffffff
  else Vector.ofFn fun i =>
    if i.val = k then m.toUInt32 else if i.val = k + 1 then (m >>> 32).toUInt32 else 0

/-- The header and the seed that a job gives. -/
def jobData (sha256d : Bytes → Hash) (job : StratumJob) : Vector UInt32 32 :=
  headerWords (le32dec job.version.toList)
    (fun i => le32dec (slice job.prevhash.toList (4 * i.val) 4))
    (jobMerkleRoot sha256d job).toList (le32dec job.ntime.toList) (le32dec job.nbits.toList)

/-- `curtime` is read from the header word itself, big endian. -/
def jobSeed (sha256d : Bytes → Hash) (host : ByteOrder) (data : Vector UInt32 32) : Hash :=
  let curtime := be32dec (host.enc (timeWord data))
  sha256d (epochSeedString (curtime / (7 * 24 * 60 * 60)))

/-- The part of `stratum_gen_work` under the lock: it takes a copy of the second
extra nonce, then counts it up in the job's coinbase. -/
def genWorkLocked (sha256d : Bytes → Hash) (host : ByteOrder) (ctx : StratumCtx) (work : Work) :
    Option (StratumCtx × Work) := do
  let jobId ← ctx.job.jobId
  let xnonce2 ← slice? ctx.job.coinbase ctx.job.xnonce2 ctx.xnonce2Size
  let data := jobData sha256d ctx.job
  let job := { ctx.job with
    coinbase := store ctx.job.coinbase ctx.job.xnonce2 (incBytes xnonce2) }
  some ({ ctx with job := job },
    { work with
      jobId := some jobId
      xnonce2 := some xnonce2
      data := data
      randomxSeedHash := jobSeed sha256d host data })

/-- The part behind the lock, which reads the job's difficulty once more. -/
def genWorkTarget (ctx : StratumCtx) (work : Work) : Work :=
  { work with target := diffToTarget (ctx.job.diff / 16) }

def stratumGenWork (sha256d : Bytes → Hash) (host : ByteOrder) (ctx : StratumCtx) (work : Work) :
    Option (StratumCtx × Work) :=
  match genWorkLocked sha256d host ctx work with
  | some (ctx, work) => some (ctx, genWorkTarget ctx work)
  | none => none

/-! ## Messages -/

/-- What a pool sends that changes the context, each with what it finds on the
heap. -/
inductive PoolMessage where
  | subscribe (heap : Nat → UInt8) (first second : Option (Option Json))
  | notify (heap : Nat → UInt8) (params : Option Json)
  | setDifficulty (params : Option Json)

def PoolMessage.handle : PoolMessage → StratumCtx → StratumCtx
  | .subscribe heap first second, ctx => (stratumSubscribe heap first second ctx).2
  | .notify heap params, ctx => (stratumNotify heap params ctx).2
  | .setDifficulty params, ctx => (stratumSetDifficulty params ctx).2

/-- A call of `stratum_gen_work` from another thread than the one that handles
the messages, some of which it handles between the two parts of the call. -/
def stratumGenWorkLate (sha256d : Bytes → Hash) (host : ByteOrder) (late : List PoolMessage)
    (ctx : StratumCtx) (work : Work) : Option (StratumCtx × Work) :=
  match genWorkLocked sha256d host ctx work with
  | some (ctx, work) =>
      let ctx := late.foldl (fun ctx m => m.handle ctx) ctx
      some (ctx, genWorkTarget ctx work)
  | none => none

end AlphaMiner
