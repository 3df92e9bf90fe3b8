import AlphaMiner.Lib.System
import AlphaMiner.Model.ThreadQueue

/-!
# The work I/O thread (`get_work`, `submit_work`, `workio_thread`)

Without a pool a miner gets its work through one thread that does all the talking to
the node. It sends that thread a `workio_cmd` and waits at a queue of its own for the
answer, with `g_work_lock` in its hand all the time. Shares go to the same thread, and
nobody waits for them.

What is sent are pointers, and who has one has to free it: the thread that could not send
a command, the work I/O thread that has done with it, the miner that has copied the work.
So the records are blocks of a heap, and a block that is read or freed while it is not
allocated is a fault (`fault`). The strings in a work are not blocks here. What is in a work
is `W`.

A step is what one thread does between two calls that can block, or under a mutex. A
queue has one consumer, so a signal has one thread to wake. What the node answers is
in the events, after all the retries, and so is which allocations fail, whom the lock is
given to, and who sends the NULL that ends the work I/O thread. In `workio_thread` a
command is freed in a step of its own.

The last five fields of `Workio` are not in the code. They keep what was asked for,
what was answered and received, which shares were taken and which were handed on.
-/

namespace AlphaMiner

open Lib

inductive WorkioCommand where
  | getWork
  | submitWork
  deriving DecidableEq

/-- `thr` and `work` are NULL as `calloc` leaves them. -/
structure WorkioCmd (n : Nat) where
  cmd : WorkioCommand
  thr : Option (Fin n)
  work : Option Nat

inductive WorkBlock (n : Nat) (W : Type) where
  | cmd (wc : WorkioCmd n)
  | work (w : W)

abbrev WorkHeap (n : Nat) (W : Type) := Nat → Option (WorkBlock n W)

variable {n : Nat} {W C R : Type}

/-! ## Where the threads stand -/

/-- In front of what a miner thread does next. With `wc` or `workHeap` in its hand where
it has one, and the `work` it submits. -/
inductive MinerPc (C R W : Type) where
  | scanning
  | locked
  | requesting (wc : C)
  | popping
  | waiting
  | woken
  | copying (workHeap : R)
  | submitting (wc : C) (work : W)
  | exiting
  | exited

inductive WorkioPc (C R : Type) where
  | starting
  | popping
  | waiting
  | woken
  | processing (wc : C)
  | replying (wc : C) (retWork : R)
  | freeing (wc : C) (ok : Bool)
  | ending
  | ended

def MinerPc.signalled : MinerPc C R W → MinerPc C R W
  | .waiting => .woken
  | pc => pc

def WorkioPc.signalled : WorkioPc C R → WorkioPc C R
  | .waiting => .woken
  | pc => pc

/-- `C` and `R` are what is sent for a command and for a work. The lock is held by a
miner, or by some other thread. -/
structure Workio (n : Nat) (C R W : Type) where
  workQ : ThreadQ C
  qs : Fin n → ThreadQ R
  miners : Fin n → MinerPc C R W
  workio : WorkioPc C R
  gWorkLock : Option (Option (Fin n))
  requests : Fin n → Nat
  fetched : Fin n → List W
  received : Fin n → List W
  submitted : List (Fin n × W)
  processed : List ((Fin n × W) × Bool)

namespace Workio

def start (n : Nat) (C R W : Type) : Workio n C R W where
  workQ := tqNew
  qs _ := tqNew
  miners _ := .scanning
  workio := .starting
  gWorkLock := none
  requests _ := 0
  fetched _ := []
  received _ := []
  submitted := []
  processed := []

def setMiner (s : Workio n C R W) (i : Fin n) (pc : MinerPc C R W) : Workio n C R W :=
  { s with miners := Function.update s.miners i pc }

def setWorkio (s : Workio n C R W) (pc : WorkioPc C R) : Workio n C R W := { s with workio := pc }

/-- `get_work` returns `false`: the lock is given back, and the thread leaves its loop. -/
def failRequest (s : Workio n C R W) (i : Fin n) : Workio n C R W :=
  { s with gWorkLock := none }.setMiner i .exiting

/-! ### Sending and taking -/

/-- `tq_push` to a queue, where `ent` is whether `calloc` had an entry for it. -/
def tqPushEnt {α : Type} (ent : Bool) (tq : ThreadQ α) (data : Option α) : Bool × ThreadQ α :=
  if ent then tqPush tq data else (false, tq)

/-- `tq_push(thr_info[work_thr_id].q, data)` -/
def pushWork (s : Workio n C R W) (ent : Bool) (data : Option C) : Bool × Workio n C R W :=
  ((tqPushEnt ent s.workQ data).1,
    { s with
      workQ := (tqPushEnt ent s.workQ data).2
      workio := if ent then s.workio.signalled else s.workio })

/-- `tq_push(wc->thr->q, ret_work)` -/
def pushReply (s : Workio n C R W) (i : Fin n) (ent : Bool) (retWork : R) : Bool × Workio n C R W :=
  ((tqPushEnt ent (s.qs i) (some retWork)).1,
    { s with
      qs := Function.update s.qs i (tqPushEnt ent (s.qs i) (some retWork)).2
      miners :=
        if ent then Function.update s.miners i (s.miners i).signalled else s.miners })

/-- `tq_pop(thr->q, NULL)` from a look at the list on, which becomes `empty` if nothing is
there. -/
def popReply (s : Workio n C R W) (i : Fin n) (empty : Workio n C R W) : Workio n C R W :=
  match (s.qs i).q with
  | [] => empty
  | data :: q =>
      let s := { s with qs := Function.update s.qs i { s.qs i with q := q } }
      match data with
      | none => s.failRequest i
      | some workHeap => s.setMiner i (.copying workHeap)

/-- `tq_pop(mythr->q, NULL)` of the work I/O thread. -/
def popWork (s : Workio n C R W) (empty : WorkioPc C R) : Workio n C R W :=
  match s.workQ.q with
  | [] => s.setWorkio empty
  | data :: q =>
      { s with workQ := { s.workQ with q := q } }.setWorkio
        (match data with
          | none => .ending
          | some wc => .processing wc)

end Workio

/-! ## The heap -/

/-- `free` of what is allocated. -/
def WorkHeap.free (heap : WorkHeap n W) (a : Nat) : Option (WorkHeap n W) :=
  match heap a with
  | none => none
  | some _ => some (Function.update heap a none)

/-- `workio_cmd_free`, with `work_free` and `free` of its work. -/
def workioCmdFree (heap : WorkHeap n W) (wc : Nat) : Option (WorkHeap n W) :=
  match heap wc with
  | some (.cmd c) =>
      match c.cmd with
      | .submitWork =>
          match c.work with
          | none => none
          | some work => (heap.free work).bind fun heap => heap.free wc
      | .getWork => heap.free wc
  | _ => none

/-- What a command asks for, and `none` for what is no command. -/
def readCmd (heap : WorkHeap n W) (wc : Nat) : Option (WorkioCmd n) :=
  match heap wc with
  | some (.cmd c) => some c
  | _ => none

def readWork (heap : WorkHeap n W) (a : Nat) : Option W :=
  match heap a with
  | some (.work w) => some w
  | _ => none

/-! ## The threads -/

structure WorkioHeap (n : Nat) (W : Type) where
  heap : WorkHeap n W
  threads : Workio n Nat Nat W
  fault : Bool

def WorkioHeap.start (n : Nat) (W : Type) : WorkioHeap n W where
  heap _ := none
  threads := .start n Nat Nat W
  fault := false

/-- What an action makes of the state, or a fault. -/
def WorkioHeap.attempt (s : WorkioHeap n W) (action : Option (WorkioHeap n W)) : WorkioHeap n W :=
  match action with
  | none => { s with fault := true }
  | some s' => s'

/-- An allocation gives an address or NULL, and `ent` is whether `tq_push` got its entry.
`reply` is the work that `get_upstream_work` has filled out, unless it failed for good, and
`ok` of `submit` is whether `submit_upstream_work` did not. -/
inductive WorkioEvent (n : Nat) (W : Type) where
  | lock (holder : Option (Fin n))
  | unlock (holder : Option (Fin n))
  | request (i : Fin n) (wc : Option Nat)
  | sendRequest (i : Fin n) (ent : Bool)
  | pop (i : Fin n)
  | spurious (i : Fin n)
  | resume (i : Fin n)
  | copy (i : Fin n)
  | share (i : Fin n) (wc work : Option Nat) (workIn : W)
  | sendShare (i : Fin n) (ent : Bool)
  | freeze (i : Fin n)
  | terminate (ent : Bool)
  | workioInit (curl : Bool)
  | workioPop
  | workioSpurious
  | workioResume
  | getUpstream (retWork : Option Nat) (reply : Option W)
  | reply (ent : Bool)
  | submitUpstream (ok : Bool)
  | workioFree
  | workioFreeze

/-- `none` where nobody stands in front of this, and for an allocation that gives what is
allocated already. -/
def workioStep (s : WorkioHeap n W) : WorkioEvent n W → Option (WorkioHeap n W)
  | .lock holder =>
      let t := s.threads
      if t.gWorkLock.isSome then none
      else
        match holder with
        | none => some { s with threads := { t with gWorkLock := some none } }
        | some i =>
            match t.miners i with
            | .scanning =>
                some { s with threads := { t with gWorkLock := some (some i) }.setMiner i .locked }
            | _ => none
  | .unlock holder =>
      let t := s.threads
      match holder with
      | none =>
          if t.gWorkLock = some none then some { s with threads := { t with gWorkLock := none } }
          else none
      | some i =>
          match t.miners i with
          | .locked => some { s with threads := { t with gWorkLock := none }.setMiner i .scanning }
          | _ => none
  | .request i wc =>
      match s.threads.miners i, wc with
      | .locked, none => some { s with threads := s.threads.failRequest i }
      | .locked, some wc =>
          if (s.heap wc).isSome then none
          else
            some { s with
              heap := Function.update s.heap wc (some (.cmd ⟨.getWork, some i, none⟩))
              threads := s.threads.setMiner i (.requesting wc) }
      | _, _ => none
  | .sendRequest i ent =>
      match s.threads.miners i with
      | .requesting wc =>
          match s.threads.pushWork ent (some wc) with
          | (true, t) =>
              some { s with
                threads := { t with requests := Function.update t.requests i (t.requests i + 1) }.setMiner
                  i .popping }
          | (false, t) =>
              some (s.attempt ((workioCmdFree s.heap wc).map fun heap =>
                { s with heap := heap, threads := t.failRequest i }))
      | _ => none
  | .pop i =>
      match s.threads.miners i with
      | .popping =>
          some { s with threads := s.threads.popReply i (s.threads.setMiner i .waiting) }
      | _ => none
  | .spurious i =>
      match s.threads.miners i with
      | .waiting => some { s with threads := s.threads.setMiner i .woken }
      | _ => none
  | .resume i =>
      match s.threads.miners i with
      | .woken => some { s with threads := s.threads.popReply i (s.threads.failRequest i) }
      | _ => none
  | .copy i =>
      match s.threads.miners i with
      | .copying workHeap =>
          some (s.attempt ((readWork s.heap workHeap).bind fun w =>
            (s.heap.free workHeap).map fun heap =>
              { s with
                heap := heap
                threads := { s.threads with
                  gWorkLock := none
                  received := Function.update s.threads.received i (s.threads.received i ++ [w])
                }.setMiner i .scanning }))
      | _ => none
  | .share i wc work workIn =>
      match s.threads.miners i, wc, work with
      | .scanning, none, _ => some { s with threads := s.threads.setMiner i .exiting }
      | .scanning, some wc, none =>
          if (s.heap wc).isSome then none
          else
            -- the command is still one of the first kind, so its work is not freed
            some (s.attempt ((workioCmdFree
              (Function.update s.heap wc (some (.cmd ⟨.getWork, none, none⟩))) wc).map fun heap =>
                { s with heap := heap, threads := s.threads.setMiner i .exiting }))
      | .scanning, some wc, some work =>
          if (s.heap wc).isSome ∨ (s.heap work).isSome ∨ wc = work then none
          else
            some { s with
              heap := Function.update (Function.update s.heap work (some (.work workIn))) wc
                (some (.cmd ⟨.submitWork, some i, some work⟩))
              threads := s.threads.setMiner i (.submitting wc workIn) }
      | _, _, _ => none
  | .sendShare i ent =>
      match s.threads.miners i with
      | .submitting wc workIn =>
          match s.threads.pushWork ent (some wc) with
          | (true, t) =>
              some { s with
                threads := { t with submitted := t.submitted ++ [(i, workIn)] }.setMiner i .scanning }
          | (false, t) =>
              some (s.attempt ((workioCmdFree s.heap wc).map fun heap =>
                { s with heap := heap, threads := t.setMiner i .exiting }))
      | _ => none
  | .freeze i =>
      let t := s.threads
      match t.miners i with
      | .exiting =>
          some { s with
            threads := { t with
              qs := Function.update t.qs i (tqFreezethaw (t.qs i) true) }.setMiner i .exited }
      | _ => none
  | .terminate ent => some { s with threads := (s.threads.pushWork ent none).2 }
  | .workioInit curl =>
      match s.threads.workio with
      | .starting => some { s with threads := s.threads.setWorkio (if curl then .popping else .ended) }
      | _ => none
  | .workioPop =>
      match s.threads.workio with
      | .popping => some { s with threads := s.threads.popWork .waiting }
      | _ => none
  | .workioSpurious =>
      match s.threads.workio with
      | .waiting => some { s with threads := s.threads.setWorkio .woken }
      | _ => none
  | .workioResume =>
      match s.threads.workio with
      | .woken => some { s with threads := s.threads.popWork .ending }
      | _ => none
  | .getUpstream retWork reply =>
      match s.threads.workio with
      | .processing wc =>
          match readCmd s.heap wc with
          | none => some { s with fault := true }
          | some ⟨.submitWork, _, _⟩ => none
          | some ⟨.getWork, thr, _⟩ =>
              match retWork, reply with
              | none, _ => some { s with threads := s.threads.setWorkio (.freeing wc false) }
              | some _, none => some { s with threads := s.threads.setWorkio (.freeing wc false) }
              | some a, some w =>
                  if (s.heap a).isSome then none
                  else
                    let t := s.threads
                    let fetched :=
                      match thr with
                      | none => t.fetched
                      | some i => Function.update t.fetched i (t.fetched i ++ [w])
                    some { s with
                      heap := Function.update s.heap a (some (.work w))
                      threads := { t with fetched := fetched }.setWorkio (.replying wc a) }
      | _ => none
  | .reply ent =>
      match s.threads.workio with
      | .replying wc retWork =>
          match readCmd s.heap wc with
          | some ⟨_, some i, _⟩ =>
              match s.threads.pushReply i ent retWork with
              | (true, t) => some { s with threads := t.setWorkio (.freeing wc true) }
              | (false, t) =>
                  some (s.attempt ((s.heap.free retWork).map fun heap =>
                    { s with heap := heap, threads := t.setWorkio (.freeing wc true) }))
          | _ => some { s with fault := true }
      | _ => none
  | .submitUpstream ok =>
      match s.threads.workio with
      | .processing wc =>
          match readCmd s.heap wc with
          | none => some { s with fault := true }
          | some ⟨.getWork, _, _⟩ => none
          | some ⟨.submitWork, thr, work⟩ =>
              match thr, work.bind (readWork s.heap) with
              | some i, some w =>
                  some { s with
                    threads := { s.threads with
                      processed := s.threads.processed ++ [((i, w), ok)] }.setWorkio (.freeing wc ok) }
              | _, _ => some { s with fault := true }
      | _ => none
  | .workioFree =>
      match s.threads.workio with
      | .freeing wc ok =>
          some (s.attempt ((workioCmdFree s.heap wc).map fun heap =>
            { s with
              heap := heap
              threads := s.threads.setWorkio (if ok then .popping else .ending) }))
      | _ => none
  | .workioFreeze =>
      match s.threads.workio with
      | .ending =>
          some { s with
            threads := { s.threads with workQ := tqFreezethaw s.threads.workQ true }.setWorkio .ended }
      | _ => none

/-- Every interleaving of `n` miner threads and the work I/O thread. -/
def workioThreads (n : Nat) (W : Type) : Lts (WorkioHeap n W) (WorkioEvent n W) where
  init s := s = .start n W
  next s e s' := workioStep s e = some s'

end AlphaMiner
