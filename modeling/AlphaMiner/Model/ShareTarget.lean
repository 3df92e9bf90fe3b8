import AlphaMiner.Lib.System
import AlphaMiner.Model.Stratum

/-!
# `stratum_gen_work` in two parts

The function copies the job under `work_lock`, gives the lock back, and then
asks the context for the job's difficulty. To the thread that handles the
pool's messages it is two steps with room between them, and so it is here. Any
number of calls may be under way, each on a record of its own.

`JobNotice` is not in the code. It is the last notification that was taken, and
the difficulty that was then current; a call remembers the one whose job it has
copied.
-/

namespace AlphaMiner

open Lib

structure JobNotice where
  jobId : Bytes
  diff : Rat

inductive GenCall where
  | idle
  | begun (work : Work) (own : Option JobNotice)
  | done (work : Work) (own : Option JobNotice)

structure GenCalls (n : Nat) where
  ctx : StratumCtx
  notice : Option JobNotice
  calls : Fin n → GenCall

def GenCalls.start (n : Nat) : GenCalls n where
  ctx := .zero
  notice := none
  calls _ := .idle

inductive GenEvent (n : Nat) where
  | message (m : PoolMessage)
  | begin (i : Fin n) (work : Work)
  | finish (i : Fin n)

/-- The notification that a message is, if its parameters are accepted, with the
difficulty it finds. -/
def PoolMessage.notice (m : PoolMessage) (ctx : StratumCtx) : Option JobNotice :=
  match m with
  | .notify _ params => (notifyParams params).map fun n => ⟨n.jobId, ctx.nextDiff⟩
  | .subscribe .. | .setDifficulty _ => none

def genStep {n : Nat} (sha256d : Bytes → Hash) (host : ByteOrder) (s : GenCalls n) :
    GenEvent n → Option (GenCalls n)
  | .message m =>
      some { s with ctx := m.handle s.ctx, notice := (m.notice s.ctx).or s.notice }
  | .begin i work =>
      match s.calls i with
      | .begun _ _ => none
      | .idle | .done _ _ =>
          match genWorkLocked sha256d host s.ctx work with
          | none => none
          | some (ctx, work) =>
              some { s with ctx := ctx, calls := Function.update s.calls i (.begun work s.notice) }
  | .finish i =>
      match s.calls i with
      | .begun work own =>
          some { s with
            calls := Function.update s.calls i (.done (genWorkTarget s.ctx work) own) }
      | .idle | .done _ _ => none

/-- Every order of the messages and of the two parts of the calls. -/
def genThreads (n : Nat) (sha256d : Bytes → Hash) (host : ByteOrder) :
    Lts (GenCalls n) (GenEvent n) where
  init s := s = .start n
  next s e s' := genStep sha256d host s e = some s'

end AlphaMiner
