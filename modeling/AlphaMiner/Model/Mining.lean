import AlphaMiner.Model.Miner
import AlphaMiner.Model.Refill
import AlphaMiner.Model.Stratum

/-!
# The miner threads and the record they share (`g_work`)

All work goes through `g_work`. The thread of the pool writes it, the long-poll
thread writes it, and so does a miner thread that finds it used up, each under
`g_work_lock`. A miner thread holds the lock from the top of its loop until it
has made up its mind whether to take over a copy, so that part of a round is
one step here; what it then does with the copy is another.

The only thing that happens while the lock is held is that the pool's thread
goes on to handle messages, and it matters only between the two parts of
`stratum_gen_work`. Who may do what when is not modelled: the threads of a
miner on a node and those of a miner on a pool may all be there, in any order.
-/

namespace AlphaMiner

open Lib

/-- What a round on a node finds when it may need a new `g_work`. Whether it does is
decided by the clock too, and the new record is what `workio_thread` makes of the
replies it gets. -/
structure NodeRefill where
  due : Bool
  freed : Bytes → Bytes
  attempts : List (List RpcReply)
  globals : GbtGlobals

/-- Where a round gets a new `g_work` from, if it needs one. -/
inductive WorkSource where
  | pool (late : List PoolMessage)
  | node (r : NodeRefill)

/-- A thread that has left its loop has no record. -/
structure Mining (n : Nat) where
  ctx : StratumCtx
  gWork : Work
  works : Fin n → Option Work

def Mining.start (n : Nat) : Mining n where
  ctx := .zero
  gWork := .zero
  works _ := some .zero

/-- A round that goes on to scan is a `round`. A reply of the node can name a pool and
so set `have_stratum` (`X-Stratum`); a round of the node's branch that sees it set, at
its first look or only after its refill, is a `skip`. -/
inductive MiningEvent (n : Nat) where
  | message (m : PoolMessage)
  | generate
  | longpoll (cfg : GbtConfig) (globals : GbtGlobals) (freed : Bytes → Bytes) (val : Json)
  | round (i : Fin n) (source : WorkSource)
  | skip (i : Fin n) (refill : Option NodeRefill)
  | scan (i : Fin n) (r : Round) (max : UInt32)

section

variable {n : Nat} (sha256d : Bytes → Hash) (host : ByteOrder) (optRetries : Int)
  (cfg : Fin n → MinerConfig)

def Mining.setWork (s : Mining n) (i : Fin n) (work : Option Work) : Mining n :=
  { s with works := Function.update s.works i work }

/-- The end of a round's first part: the comparison, and the copy. -/
def Mining.load (s : Mining n) (i : Fin n) (work : Work) : Mining n :=
  s.setWork i (some (loadWork (cfg i) s.gWork work))

/-- Without a record from `workio_thread` the thread leaves its loop. -/
def Mining.refill (s : Mining n) (i : Fin n) (work : Work) (r : NodeRefill) :
    Option (Mining n) :=
  if r.due ∨ endNonce (cfg i) ≤ nonceWord work.data then
    match workioGetWork sha256d host optRetries r.attempts r.globals with
    | none => none
    | some none => some ({ s with gWork := workFree r.freed s.gWork }.setWork i none)
    | some (some gWork) => some { s with gWork := gWork }
  else some s

/-- A round of thread `i`, which holds `work`, up to the release of the lock. -/
def Mining.round (s : Mining n) (i : Fin n) (work : Work) : WorkSource → Option (Mining n)
  | .pool late =>
      if endNonce (cfg i) ≤ nonceWord work.data ∧
          blockWords work.data = blockWords s.gWork.data then
        match stratumGenWorkLate sha256d host late s.ctx s.gWork with
        | none => none
        | some (ctx, gWork) => some ({ s with ctx := ctx, gWork := gWork }.load cfg i work)
      else some (s.load cfg i work)
  | .node r =>
      match s.refill sha256d host optRetries cfg i work r with
      | none => none
      | some s' =>
          match s'.works i with
          | none => some s'
          | some work => some (s'.load cfg i work)

/-- A round of the node's branch that is left by `continue`. -/
def Mining.skip (s : Mining n) (i : Fin n) (work : Work) : Option NodeRefill → Option (Mining n)
  | none => some s
  | some r => s.refill sha256d host optRetries cfg i work r

def miningStep (s : Mining n) : MiningEvent n → Option (Mining n)
  | .message m => some { s with ctx := m.handle s.ctx }
  | .generate =>
      match stratumGenWork sha256d host s.ctx s.gWork with
      | none => none
      | some (ctx, gWork) => some { s with ctx := ctx, gWork := gWork }
  | .longpoll gbt globals freed val =>
      match longpollRefill sha256d host gbt freed val ⟨globals, s.gWork⟩ with
      | none => none
      | some (_, t) => some { s with gWork := t.work }
  | .round i source =>
      match s.works i with
      | none => none
      | some work => s.round sha256d host optRetries cfg i work source
  | .skip i refill =>
      match s.works i with
      | none => none
      | some work => s.skip sha256d host optRetries cfg i work refill
  | .scan i r max =>
      match s.works i with
      | none => none
      | some work => some (s.setWork i (some (scannedWork work (scanhash (cfg i) r work max))))

/-- Every order in which the threads can take their steps. -/
def minerThreads : Lts (Mining n) (MiningEvent n) where
  init s := s = .start n
  next s e s' := miningStep sha256d host optRetries cfg s e = some s'

end

end AlphaMiner
