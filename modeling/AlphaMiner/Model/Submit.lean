import AlphaMiner.Model.Work

/-!
# Submitting a share (`submit_upstream_work` and its retry loop)

A solved record leaves the miner in one of three requests: `mining.submit` for
a pool, `submitblock` for a node that hands out templates, and `getwork` for
one that does not. The two requests to a node are printed from the record's own
header words, which the function first re-encodes where they lie; the record is
part of its result for that reason.

The other end is given by its answers. `Upstream` is what one attempt gets from
`stratum_send_line` or `json_rpc_call`, `none` being the `NULL` of a call that
failed, and a run of `workio_submit_work` takes a list of attempts, each with
the globals it finds. The statistics and the log are left out except for the
verdict that is counted.
-/

namespace AlphaMiner

open Lib

/-- The globals a submission reads. -/
structure SubmitGlobals where
  rpcUser : Bytes
  haveStratum : Bool
  submitOld : Bool
  gWork : Work

structure Upstream where
  sendOk : Bool
  reply : Option Json

structure Submission where
  rc : Bool
  work : Work
  sent : Option Bytes
  shareResult : Option Bool

/-! ## The requests -/

def jsonEscape (c : UInt8) : Bytes :=
  if c = 92 then ascii "\\\\"
  else if c = 34 then ascii "\\\""
  else if c = 8 then ascii "\\b"
  else if c = 12 then ascii "\\f"
  else if c = 10 then ascii "\\n"
  else if c = 13 then ascii "\\r"
  else if c = 9 then ascii "\\t"
  else if c < 0x20 then ascii "\\u00" ++ bin2hex [c]
  else [c]

/-- `json_dumps` of an object whose one member is `workid`. -/
def workidParams (workid : Bytes) : Bytes :=
  ascii "\x7b\"workid\": \"" ++ workid.flatMap jsonEscape ++ ascii "\"\x7d"

def miningSubmitReq (rpcUser jobId xnonce2str ntimestr noncestr : Bytes) : Bytes :=
  ascii "\x7b\"method\": \"mining.submit\", \"params\": [\"" ++ rpcUser ++
    ascii "\", \"" ++ jobId ++ ascii "\", \"" ++ xnonce2str ++
    ascii "\", \"" ++ ntimestr ++ ascii "\", \"" ++ noncestr ++ ascii "\"], \"id\":4\x7d"

/-- The bytes that are allocated for it. -/
def miningSubmitSize (rpcUser jobId : Bytes) (xnonce2Len : Nat) : Nat :=
  256 + rpcUser.length + jobId.length + 2 * xnonce2Len

def submitblockReq (dataStr txs : Bytes) (workid : Option Bytes) : Bytes :=
  ascii "\x7b\"method\": \"submitblock\", \"params\": [\"" ++ dataStr ++ txs ++
    match workid with
    | some workid => ascii "\", " ++ workidParams workid ++ ascii "], \"id\":1\x7d\r\n"
    | none => ascii "\"], \"id\":1\x7d\r\n"

def getworkReq (dataStr : Bytes) : Bytes :=
  ascii "\x7b\"method\": \"getwork\", \"params\": [ \"" ++ dataStr ++
    ascii "\" ], \"id\":1\x7d\r\n"

/-! ## One attempt -/

/-- The eight words `memcmp(data + 1, …, 32)` looks at. -/
def prevhashWords (data : Vector UInt32 32) : List UInt32 := (data.toList.drop 1).take 8

/-- The test for stale work, which discards a record without submitting it. -/
def stale (g : SubmitGlobals) (work : Work) : Bool :=
  !g.submitOld && decide (prevhashWords work.data ≠ prevhashWords g.gWork.data)

/-- `for (i…) be32enc(a + i, a[i])`. -/
def be32encInPlace {n : Nat} (host : ByteOrder) (a : Vector UInt32 n) : Vector UInt32 n :=
  a.map fun w => host.dec (be32enc w)

/-- `for (i…) le32enc(a + i, a[i])`. -/
def le32encInPlace {n : Nat} (host : ByteOrder) (a : Vector UInt32 n) : Vector UInt32 n :=
  a.map fun w => host.dec (le32enc w)

/-- The header words of a block on its way out: every word big endian, and the
RandomX hash behind the first twenty of them. -/
def submitblockData (host : ByteOrder) (work : Work) : Vector UInt32 32 :=
  host.words 32
    (store (host.bytes (be32encInPlace host work.data)) 80 work.rxHash.toList)

/-- What a `submitblock` reply says about the block. -/
def submitblockVerdict (val : Json) : Bool :=
  match jsonObjectGet (some val) "result" with
  | some (.object members) => members.any fun m => jsonIsNull (some m.2)
  | res => jsonIsNull res

/-- One attempt. A pool submission of a record without a job id reads through
`NULL`, and has no result. -/
def submitUpstreamWork (host : ByteOrder) (g : SubmitGlobals) (up : Upstream) (work : Work) :
    Option Submission :=
  if stale g work then
    some { rc := true, work := work, sent := none, shareResult := none }
  else if g.haveStratum then
    let ntimestr := bin2hex (le32enc (timeWord work.data))
    let noncestr := bin2hex (le32enc (nonceWord work.data))
    let xnonce2str := bin2hex (work.xnonce2.getD [])
    match work.jobId with
    | none => none
    | some jobId =>
        let req := miningSubmitReq g.rpcUser jobId xnonce2str ntimestr noncestr
        some { rc := up.sendOk, work := work, sent := some req, shareResult := none }
  else
    match work.txs with
    | some txs =>
        let work := { work with data := submitblockData host work }
        let dataStr := bin2hex ((host.bytes work.data).take 112)
        let req := submitblockReq dataStr txs work.workid
        match up.reply with
        | none => some { rc := false, work := work, sent := some req, shareResult := none }
        | some val =>
            some { rc := true, work := work, sent := some req
                   shareResult := some (submitblockVerdict val) }
    | none =>
        let work := { work with data := le32encInPlace host work.data }
        let req := getworkReq (bin2hex (host.bytes work.data))
        match up.reply with
        | none => some { rc := false, work := work, sent := some req, shareResult := none }
        | some val =>
            some { rc := true, work := work, sent := some req
                   shareResult := some (jsonIsTrue (jsonObjectGet (some val) "result")) }

/-! ## The retry loop

`rc` is `none` while the loop is still trying when the attempts run out, or
when an attempt has no result. -/

structure SubmitRun where
  rc : Option Bool
  calls : List Submission

def workioSubmitWork.loop (host : ByteOrder) (optRetries : Int) :
    List (SubmitGlobals × Upstream) → Int → Work → SubmitRun
  | [], _, _ => ⟨none, []⟩
  | (g, up) :: rest, failures, work =>
      match submitUpstreamWork host g up work with
      | none => ⟨none, []⟩
      | some call =>
          if call.rc then ⟨some true, [call]⟩
          else if optRetries ≥ 0 ∧ failures + 1 > optRetries then ⟨some false, [call]⟩
          else
            let run := workioSubmitWork.loop host optRetries rest (failures + 1) call.work
            ⟨run.rc, call :: run.calls⟩

def workioSubmitWork (host : ByteOrder) (optRetries : Int)
    (attempts : List (SubmitGlobals × Upstream)) (work : Work) : SubmitRun :=
  workioSubmitWork.loop host optRetries attempts 0 work

end AlphaMiner
