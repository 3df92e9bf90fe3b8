import AlphaMiner.Model.GbtWork

/-!
# Who hands which record to the decoders (`cpu-miner.c`)

`workio_get_work` allocates a record of zeros and passes it to
`get_upstream_work` until that succeeds; the attempts share the record, and an
attempt may itself turn from `getblocktemplate` to `getwork` and start over.
The long-poll thread decodes into `g_work`, after `work_free`, which gives the
blocks back and keeps the pointers. What is then found behind a pointer is up
to the allocator, so `workFree` takes it as a parameter.

A reply is what `json_rpc_call` returned, with whether curl was content, and
the globals that other threads may have changed by then.
-/

namespace AlphaMiner

open Lib

/-- `work_free`. The pointers stay what they were. -/
def workFree (freed : Bytes → Bytes) (w : Work) : Work :=
  { w with
    txs := w.txs.map freed
    workid := w.workid.map freed
    jobId := w.jobId.map freed
    xnonce2 := w.xnonce2.map freed }

/-- The decoder that `have_gbt` selects, on the `result` of a reply. Without a
result of its own where a template makes the function fault. -/
def decodeResult (sha256d : Bytes → Hash) (host : ByteOrder) (cfg : GbtConfig)
    (res : Option Json) (s : GbtState) : Option (Bool × GbtState) :=
  if s.globals.haveGbt then
    match gbtWorkDecode sha256d cfg res s with
    | .ok _ s => some (true, s)
    | .error (.out _) s => some (false, s)
    | .error .fault _ => none
  else
    let (rc, work) := workDecode host res s.work
    some (rc, { s with work := work })

structure RpcReply where
  val : Option Json
  curlOk : Bool
  haveStratum : Bool
  cfg : GbtConfig

/-- `get_upstream_work`, over the replies to the calls it makes. There is no
result when they run out, or when a template makes the decoder fault. -/
def getUpstreamWork (sha256d : Bytes → Hash) (host : ByteOrder) :
    List RpcReply → GbtState → Option (Bool × GbtState)
  | [], _ => none
  | reply :: rest, s =>
      if reply.haveStratum then some (true, s)
      else if !s.globals.haveGbt && !reply.cfg.allowGetwork then some (false, s)
      else if s.globals.haveGbt && reply.cfg.allowGetwork && reply.val.isNone &&
          reply.curlOk then
        getUpstreamWork sha256d host rest
          { s with globals := { s.globals with haveGbt := false } }
      else if reply.val.isNone then some (false, s)
      else
        match decodeResult sha256d host reply.cfg (jsonObjectGet reply.val "result") s with
        | none => none
        | some (rc, s') =>
            if s.globals.haveGbt && !s'.globals.haveGbt then
              getUpstreamWork sha256d host rest s'
            else some (rc, s')

/-- The loop of `workio_get_work` over the replies to each of its attempts: the
record that is handed to the thread that asked, or nothing. -/
def workioGetWork.loop (sha256d : Bytes → Hash) (host : ByteOrder) (optRetries : Int) :
    List (List RpcReply) → Int → GbtState → Option (Option Work)
  | [], _, _ => none
  | replies :: rest, failures, s =>
      match getUpstreamWork sha256d host replies s with
      | none => none
      | some (true, s) => some (some s.work)
      | some (false, s) =>
          if optRetries ≥ 0 ∧ failures + 1 > optRetries then some none
          else workioGetWork.loop sha256d host optRetries rest (failures + 1) s

def workioGetWork (sha256d : Bytes → Hash) (host : ByteOrder) (optRetries : Int)
    (attempts : List (List RpcReply)) (globals : GbtGlobals) : Option (Option Work) :=
  workioGetWork.loop sha256d host optRetries attempts 0 ⟨globals, Work.zero⟩

/-- What `longpoll_thread` does to `g_work` with a reply. -/
def longpollRefill (sha256d : Bytes → Hash) (host : ByteOrder) (cfg : GbtConfig)
    (freed : Bytes → Bytes) (val : Json) (s : GbtState) : Option (Bool × GbtState) :=
  decodeResult sha256d host cfg (jsonObjectGet (some val) "result")
    { s with work := workFree freed s.work }

end AlphaMiner
