import AlphaMiner.Lib.System
import Mathlib.Logic.Function.Basic

/-!
# The thread queue (`util.c`)

The threads talk over queues of pointers. Every function takes the queue's mutex
for all of its body, so each call is one step, except that `tq_pop` gives the
mutex up while it waits. It waits once and looks at the list once more. A signal
makes one waiting consumer go on, and a consumer may also go on without one; in
both cases it first has to get the mutex back, and other steps may come before.

`pthread_cond_signal` is free to let several consumers go on. That is the signal
and spurious wake-ups right after it. Nobody passes a time limit to `tq_pop`, so
the plain wait is the only one here.

`everFrozen`, `accepted` and `popped` are not in the code. They keep what a queue
has seen.
-/

namespace AlphaMiner

open Lib

variable {α : Type}

/-- The data are pointers, and `none` is NULL. -/
structure ThreadQ (α : Type) where
  q : List (Option α)
  frozen : Bool

def tqNew : ThreadQ α := ⟨[], false⟩

/-- `tq_freeze` and `tq_thaw` are its two values of `frozen`. -/
def tqFreezethaw (tq : ThreadQ α) (frozen : Bool) : ThreadQ α := { tq with frozen := frozen }

def tqPush (tq : ThreadQ α) (data : Option α) : Bool × ThreadQ α :=
  if !tq.frozen then (true, { tq with q := tq.q ++ [data] }) else (false, tq)

/-! ## Producers and consumers -/

inductive PopCall (α : Type) where
  | idle
  | waiting
  | woken
  | returned (rval : Option α)

def PopCall.isWaiting : PopCall α → Bool
  | .waiting => true
  | .idle | .woken | .returned _ => false

structure PopCalls (n : Nat) (α : Type) where
  tq : ThreadQ α
  calls : Fin n → PopCall α
  everFrozen : Bool
  accepted : List (Option α)
  popped : List (Option α)

def PopCalls.start (n : Nat) (α : Type) : PopCalls n α where
  tq := tqNew
  calls _ := .idle
  everFrozen := false
  accepted := []
  popped := []

/-- A signal is lost only if nobody waits. -/
def signal {n : Nat} (calls : Fin n → PopCall α) :
    Option (Fin n) → Option (Fin n → PopCall α)
  | some i => if (calls i).isWaiting then some (Function.update calls i .woken) else none
  | none => if ∀ i, (calls i).isWaiting = false then some calls else none

/-- `tq_pop` with the mutex in hand. On an empty list the call becomes `empty`:
it starts to wait the first time and has returned NULL the second time. -/
def popLocked {n : Nat} (s : PopCalls n α) (i : Fin n) (empty : PopCall α) : PopCalls n α :=
  match s.tq.q with
  | [] => { s with calls := Function.update s.calls i empty }
  | data :: q =>
      { s with
        tq := { s.tq with q := q }
        calls := Function.update s.calls i (.returned data)
        popped := s.popped ++ [data] }

/-- What the environment or a thread does. `wake` is whom a signal reaches. -/
inductive QueueEvent (n : Nat) (α : Type) where
  | push (data : Option α) (wake : Option (Fin n))
  | freezethaw (frozen : Bool) (wake : Option (Fin n))
  | pop (i : Fin n)
  | spurious (i : Fin n)
  | resume (i : Fin n)

def queueStep {n : Nat} (s : PopCalls n α) : QueueEvent n α → Option (PopCalls n α)
  | .push data wake =>
      (signal s.calls wake).map fun calls =>
        { s with
          tq := (tqPush s.tq data).2
          calls := calls
          accepted := if (tqPush s.tq data).1 then s.accepted ++ [data] else s.accepted }
  | .freezethaw frozen wake =>
      (signal s.calls wake).map fun calls =>
        { s with
          tq := tqFreezethaw s.tq frozen
          calls := calls
          everFrozen := s.everFrozen || frozen }
  | .pop i =>
      match s.calls i with
      | .idle | .returned _ => some (popLocked s i .waiting)
      | .waiting | .woken => none
  | .spurious i =>
      if (s.calls i).isWaiting then
        some { s with calls := Function.update s.calls i .woken }
      else none
  | .resume i =>
      match s.calls i with
      | .woken => some (popLocked s i (.returned none))
      | .idle | .waiting | .returned _ => none

/-- Every order of the calls of any number of producers and of `n` consumers. -/
def queueThreads (n : Nat) (α : Type) : Lts (PopCalls n α) (QueueEvent n α) where
  init s := s = .start n α
  next s e s' := queueStep s e = some s'

/-! ## The callers -/

/-- `ok` after one round of the loop in `workio_thread`. `process` is what
`workio_get_work` or `workio_submit_work` returns for a command. -/
def workioRound (process : α → Bool) : Option α → Bool
  | none => false
  | some wc => process wc

/-- `get_work` once its record is filled out: `pushed` is whether the request was
taken, and `workHeap` what `tq_pop` returned. `none` is the result `false`. -/
def getWork (pushed : Bool) (workHeap : Option α) : Option α :=
  if !pushed then none else workHeap

end AlphaMiner
