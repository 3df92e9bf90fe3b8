import AlphaMiner.Lib.System
import Mathlib.Logic.Function.Basic

/-!
# Inside a barrier (`pthread_barrier.c`)

Where the system has no barriers the repository brings its own, out of a mutex and a
condition variable. `Epoch` takes a call for two steps, an arrival and a departure; here
are those in between. A thread that is not the last of its round sleeps until the phase
has changed. It can be woken for no reason, and then it sleeps again, or be slow to get
up, and then others can be in the next round already.

A step is what a thread does with the mutex in hand, up to where it sleeps or gives the
mutex back, and `leave` is its return. The counters are `unsigned`. `calls`, `returns` and
`serials` are not in the code: how often each thread has called and returned, and how
often some thread was told that it was the last.
-/

namespace AlphaMiner

open Lib

structure PthreadBarrier where
  limit : UInt32
  count : UInt32
  phase : UInt32

/-- `pthread_barrier_init`, and `none` where it fails with `EINVAL`. -/
def pthreadBarrierInit (count : UInt32) : Option PthreadBarrier :=
  if count = 0 then none else some ⟨count, 0, 0⟩

/-- `serial` is whether it returns `PTHREAD_BARRIER_SERIAL_THREAD`. -/
inductive BarrierPc where
  | outside
  | sleeping (phase : UInt32)
  | woken (phase : UInt32)
  | returning (serial : Bool)
  deriving DecidableEq

/-- What `pthread_cond_broadcast` makes of a thread. -/
def BarrierPc.broadcast : BarrierPc → BarrierPc
  | .sleeping phase => .woken phase
  | pc => pc

structure BarrierCalls (n : Nat) where
  barrier : PthreadBarrier
  pcs : Fin n → BarrierPc
  calls : Fin n → Nat
  returns : Fin n → Nat
  serials : Nat

inductive BarrierEvent (n : Nat) where
  | call (i : Fin n)
  | spurious (i : Fin n)
  | resume (i : Fin n)
  | leave (i : Fin n)

namespace BarrierCalls

variable {n : Nat}

def start (n : Nat) (barrier : PthreadBarrier) : BarrierCalls n where
  barrier := barrier
  pcs _ := .outside
  calls _ := 0
  returns _ := 0
  serials := 0

def setPc (s : BarrierCalls n) (i : Fin n) (pc : BarrierPc) : BarrierCalls n :=
  { s with pcs := Function.update s.pcs i pc }

/-- `pthread_barrier_wait` up to where the thread sleeps or returns. -/
def pthreadBarrierWait (s : BarrierCalls n) (i : Fin n) : BarrierCalls n :=
  let s := { s with
    barrier.count := s.barrier.count + 1
    calls := Function.update s.calls i (s.calls i + 1) }
  if s.barrier.limit ≤ s.barrier.count then
    { s with
      barrier := { s.barrier with phase := s.barrier.phase + 1, count := 0 }
      pcs := fun j => (s.pcs j).broadcast
      serials := s.serials + 1 }.setPc i (.returning true)
  else s.setPc i (.sleeping s.barrier.phase)

/-- `none` where the thread does not stand in front of this. -/
def step (s : BarrierCalls n) : BarrierEvent n → Option (BarrierCalls n)
  | .call i =>
      match s.pcs i with
      | .outside => some (s.pthreadBarrierWait i)
      | _ => none
  | .spurious i =>
      match s.pcs i with
      | .sleeping phase => some (s.setPc i (.woken phase))
      | _ => none
  | .resume i =>
      match s.pcs i with
      | .woken phase =>
          some (s.setPc i (if phase = s.barrier.phase then .sleeping phase else .returning false))
      | _ => none
  | .leave i =>
      match s.pcs i with
      | .returning _ =>
          some ({ s with returns := Function.update s.returns i (s.returns i + 1) }.setPc i .outside)
      | _ => none

end BarrierCalls

/-- Every interleaving of as many threads as the barrier was made for. -/
def barrierThreads (limit : UInt32) :
    Lts (BarrierCalls limit.toNat) (BarrierEvent limit.toNat) where
  init s := ∃ barrier, pthreadBarrierInit limit = some barrier ∧ s = .start limit.toNat barrier
  next s e s' := s.step e = some s'

end AlphaMiner
