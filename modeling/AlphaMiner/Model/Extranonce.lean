import AlphaMiner.Lib.System
import AlphaMiner.Model.Stratum

/-!
# The life of one job (`stratum_gen_work`, `stratum_notify`)

A pool may send a job again, with the same id and anything else different, and
between its notifications the miner generates work from it. All of this happens
under one subscription and under `work_lock`. `handed` keeps what the calls of
`stratum_gen_work` have copied for their work so far, in order.
-/

namespace AlphaMiner

open Lib

structure JobLife where
  ctx : StratumCtx
  handed : List Bytes

inductive JobEvent where
  | notify (heap : Nat → UInt8) (params : Option Json)
  | generate (work : Work)

/-- A notification of another job is no step here, because it ends the life of
this one; one that is refused changes nothing. -/
def jobStep (sha256d : Bytes → Hash) (host : ByteOrder) (s : JobLife) :
    JobEvent → Option JobLife
  | .notify heap params =>
      match notifyParams params with
      | none => some s
      | some n =>
          if s.ctx.job.jobId = some n.jobId then
            some { s with ctx := (stratumNotify heap params s.ctx).2 }
          else none
  | .generate work =>
      match stratumGenWork sha256d host s.ctx work with
      | none => none
      | some (ctx, work) => some ⟨ctx, s.handed ++ work.xnonce2.toList⟩

/-- Every run from a notification on that sends the job, to any context. -/
def jobLife (sha256d : Bytes → Hash) (host : ByteOrder) : Lts JobLife JobEvent where
  init s := (∃ heap params ctx, stratumNotify heap params ctx = (true, s.ctx)) ∧ s.handed = []
  next s e s' := jobStep sha256d host s e = some s'

end AlphaMiner
