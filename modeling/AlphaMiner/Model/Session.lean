import AlphaMiner.Model.Miner
import AlphaMiner.Model.Stratum

/-!
# The connection to a pool over its whole life (`stratum_thread`)

`stratum_thread` connects, subscribes, authorizes, and then alternates between
looking whether the job in the context calls for new work and waiting for the
next line; a lost connection sends it back to the start. The context survives
that, and so does the job in it. Beside it the miner threads call
`stratum_gen_work` whenever one of them has used up its nonces.

A session is where the thread stands and what it shares with the miners. What
comes from outside is in the events: whether a connection is made, what the
pool's lines parse to, and when a miner asks. Of `g_work_time` only its being
zero is looked at here, and a miner holds work only after there has been some,
since it waits for the time to be set. Everything a line or a filler does is
done under a lock, so an event is one step; `stratum_gen_work` reads the job's
difficulty behind its lock, which no part of the layout depends on. The number
of retries is left open: a thread that gives up stops taking steps. The miner is
one that was started on a pool, not one that was sent to it by `getwork`.

`notified` is not in the code. It remembers the notification that laid out the
job, and under which subscription it did.
-/

namespace AlphaMiner

open Lib

/-! ## Lines from the pool -/

/-- Answers, and whether the connection is still there. -/
def stratumReconnect (optRedirect : Bool) (params : Option Json) : Bool × Bool :=
  let host := jsonStringValue (jsonArrayGet params 0)
  let port :=
    match jsonArrayGet params 1 with
    | some (.string s) => atoi s
    | val => (jsonIntegerValue val).bmod (2 ^ 32)
  if host.isNone ∨ port = 0 then (false, true) else (true, !optRedirect)

/-- `sent` is what `stratum_send_line` answers. -/
def stratumGetVersion (sent : Bool) (id : Option Json) : Bool :=
  if id.isNone ∨ jsonIsNull id then false else sent

def stratumShowMessage (sent : Bool) (id : Option Json) : Bool :=
  if id.isNone ∨ jsonIsNull id then true else sent

/-- What a line did: whether it was a method and went well, the context behind
it, and whether the connection is still there. -/
structure Handled where
  ret : Bool
  ctx : StratumCtx
  connected : Bool

def stratumHandleMethod (optRedirect : Bool) (heap : Nat → UInt8) (sent : Bool)
    (val : Option Json) (ctx : StratumCtx) : Handled :=
  match jsonStringValue (jsonObjectGet val "method") with
  | none => ⟨false, ctx, true⟩
  | some method =>
      let method := method.map lowerAscii
      let id := jsonObjectGet val "id"
      let params := jsonObjectGet val "params"
      if method = ascii "mining.notify" then
        let (ret, ctx) := stratumNotify heap params ctx
        ⟨ret, ctx, true⟩
      else if method = ascii "mining.set_difficulty" then
        let (ret, ctx) := stratumSetDifficulty params ctx
        ⟨ret, ctx, true⟩
      else if method = ascii "client.reconnect" then
        let (ret, connected) := stratumReconnect optRedirect params
        ⟨ret, ctx, connected⟩
      else if method = ascii "client.get_version" then ⟨stratumGetVersion sent id, ctx, true⟩
      else if method = ascii "client.show_message" then ⟨stratumShowMessage sent id, ctx, true⟩
      else ⟨false, ctx, true⟩

/-- What `stratum_authorize` makes of the first line that is no method. -/
def authorizeReply (val : Option Json) : Bool :=
  match jsonObjectGet val "result", jsonObjectGet val "error" with
  | none, _ => false
  | some res, err => !(jsonIsFalse (some res) || (err.isSome && !jsonIsNull err))

/-- The notification in a line that is one, if its parameters are accepted. -/
def acceptedNotify (val : Option Json) : Option NotifyParams :=
  match jsonStringValue (jsonObjectGet val "method") with
  | none => none
  | some method =>
      if method.map lowerAscii = ascii "mining.notify" then
        notifyParams (jsonObjectGet val "params")
      else none

/-! ## The thread -/

/-- Where `stratum_thread` stands: in front of one of its calls, or of the test
whether the job calls for work. -/
inductive Position where
  | connecting
  | subscribing
  | authorizing
  | checking
  | generating
  | receiving
  deriving DecidableEq

/-- A notification and the subscription it was received under. -/
structure Notified where
  params : NotifyParams
  xnonce1 : Bytes
  xnonce2Size : Nat

structure Session where
  position : Position
  connected : Bool
  ctx : StratumCtx
  gWork : Work
  gWorkTime : Bool
  notified : Option Notified

def Session.start : Session where
  position := .connecting
  connected := false
  ctx := .zero
  gWork := .zero
  gWorkTime := false
  notified := none

/-- A line is `none` where none came, and what it parses to otherwise. -/
inductive SessionEvent where
  | connect (ok : Bool)
  | subscribe (heap : Nat → UInt8) (first second : Option (Option Json))
  | authorize (heap : Nat → UInt8) (sent : Bool) (line : Option (Option Json))
  | check
  | generate
  | receive (heap : Nat → UInt8) (sent : Bool) (line : Option (Option Json))
  | minerGenerate (cfg : MinerConfig) (work : Work)

/-- `stratum_disconnect`, and back to the start of the loop. -/
def Session.disconnect (s : Session) : Session :=
  { s with connected := false, position := .connecting }

/-- `stratum_handle_method` on the session's context. -/
def Session.handle (s : Session) (optRedirect : Bool) (heap : Nat → UInt8) (sent : Bool)
    (val : Option Json) : Bool × Session :=
  let h := stratumHandleMethod optRedirect heap sent val s.ctx
  let notified :=
    match acceptedNotify val with
    | none => s.notified
    | some params => some ⟨params, s.ctx.xnonce1, s.ctx.xnonce2Size⟩
  (h.ret, { s with ctx := h.ctx, connected := h.connected, notified := notified })

/-- `stratum.job.job_id && (!g_work_time || strcmp(stratum.job.job_id, g_work.job_id))` -/
def Session.needsWork (s : Session) : Bool :=
  s.ctx.job.jobId.isSome && (!s.gWorkTime || s.ctx.job.jobId ≠ s.gWork.jobId)

/-- `work.data[19] >= end_nonce && !memcmp(work.data, g_work.data, 76)`, asked by
a miner that holds `work`. -/
def Session.minerNeedsWork (s : Session) (cfg : MinerConfig) (work : Work) : Bool :=
  s.gWork.jobId.isSome && endNonce cfg ≤ nonceWord work.data &&
    blockWords work.data = blockWords s.gWork.data

/-- `stratum_gen_work(&stratum, &g_work)` -/
def Session.genWork (sha256d : Bytes → Hash) (host : ByteOrder) (s : Session) : Option Session :=
  match stratumGenWork sha256d host s.ctx s.gWork with
  | none => none
  | some (ctx, gWork) => some { s with ctx := ctx, gWork := gWork }

section

variable (sha256d : Bytes → Hash) (host : ByteOrder) (optRedirect : Bool)

def sessionStep (s : Session) : SessionEvent → Option Session
  | .connect ok =>
      if s.position = .connecting then
        let s := { s with gWorkTime := false }
        if ok then some { s with connected := true, position := .subscribing }
        else some s.disconnect
      else none
  | .subscribe heap first second =>
      if s.position = .subscribing then
        let (ok, ctx) := stratumSubscribe heap first second s.ctx
        let s := { s with ctx := ctx }
        if ok then some { s with position := .authorizing } else some s.disconnect
      else none
  | .authorize heap sent line =>
      if s.position = .authorizing then
        match (if s.connected then line else none) with
        | none => some s.disconnect
        | some val =>
            let (handled, s) := s.handle optRedirect heap sent val
            if handled then some s
            else if authorizeReply val then some { s with position := .checking }
            else some s.disconnect
      else none
  | .check =>
      if s.position = .checking then
        some { s with position := if s.needsWork then .generating else .receiving }
      else none
  | .generate =>
      if s.position = .generating then
        (s.genWork sha256d host).map fun s => { s with gWorkTime := true, position := .receiving }
      else none
  | .receive heap sent line =>
      if s.position = .receiving then
        match line with
        | none => some s.disconnect
        | some val =>
            let s := (s.handle optRedirect heap sent val).2
            some { s with position := if s.connected then .checking else .connecting }
      else none
  | .minerGenerate cfg work =>
      if s.minerNeedsWork cfg work then s.genWork sha256d host else none

/-- Every run of the two kinds of threads against any pool. -/
def stratumSession : Lts Session SessionEvent where
  init s := s = .start
  next s e s' := sessionStep sha256d host optRedirect s e = some s'

end

/-- The events that call `stratum_gen_work`. -/
def Session.Generates (s : Session) : SessionEvent → Prop
  | .generate => s.position = .generating
  | .minerGenerate cfg work => s.minerNeedsWork cfg work
  | _ => False

instance (s : Session) : DecidablePred s.Generates := fun
  | .generate => inferInstanceAs (Decidable (s.position = .generating))
  | .minerGenerate cfg work => inferInstanceAs (Decidable (s.minerNeedsWork cfg work = true))
  | .connect _ | .subscribe .. | .authorize .. | .check | .receive .. => instDecidableFalse

end AlphaMiner
