import AlphaMiner.Lib.Ring
import AlphaMiner.Model.ThreadQueue

/-!
# The list under the thread queue (`elist.h`, `util.c`)

`ThreadQueue` takes the list for what it is meant to be. Here it is made of
pointers: every entry carries a `list_head`, the queue has one of its own, and
an entry is known by where its `list_head` is, so that `list_entry` has nothing
to do. NULL is `none`, and reading or writing through NULL or through what is not
allocated is a fault.

`tq_push` allocates and fills out its entry before it takes the mutex, and the
allocation may fail. So a push is two steps, and other threads may come between.
-/

namespace AlphaMiner

open Lib

variable {α : Type}

/-- The `list_head`s that are allocated. -/
abbrev ListHeads := Nat → Option (Link Nat)

def setNext (m : ListHeads) (ptr next : Option Nat) : Option ListHeads := do
  let a ← ptr
  let l ← m a
  return Function.update m a (some { l with next := next })

def setPrev (m : ListHeads) (ptr prev : Option Nat) : Option ListHeads := do
  let a ← ptr
  let l ← m a
  return Function.update m a (some { l with prev := prev })

def free (m : ListHeads) (a : Nat) : Option ListHeads := do
  let _ ← m a
  return Function.update m a none

def initListHead (m : ListHeads) (ptr : Nat) : Option ListHeads := do
  let m ← setNext m ptr ptr
  setPrev m ptr ptr

/-- `__list_add`. -/
def listAddBetween (m : ListHeads) (new prev next : Option Nat) : Option ListHeads := do
  let m ← setPrev m next new
  let m ← setNext m new next
  let m ← setPrev m new prev
  setNext m prev new

def listAddTail (m : ListHeads) (new head : Nat) : Option ListHeads := do
  let h ← m head
  listAddBetween m new h.prev head

/-- `__list_del`. -/
def listDelBetween (m : ListHeads) (prev next : Option Nat) : Option ListHeads := do
  let m ← setPrev m next prev
  setNext m prev next

def listDel (m : ListHeads) (entry : Nat) : Option ListHeads := do
  let e ← m entry
  let m ← listDelBetween m e.prev e.next
  let m ← setNext m entry none
  setPrev m entry none

/-! ## The queue -/

/-- `q` is where the queue's own `list_head` is, and `data` is what an entry
holds besides its `list_head`. -/
structure TqHeap (α : Type) where
  heads : ListHeads
  q : Nat
  data : Nat → Option α
  frozen : Bool

/-- `tq_new`, which got its memory at `q`. -/
def TqHeap.new (q : Nat) : TqHeap α where
  heads := Function.update (fun _ => none) q (some ⟨some q, some q⟩)
  q := q
  data _ := none
  frozen := false

/-- The part of `tq_push` before the mutex, with an entry from `calloc`. -/
def TqHeap.newEnt (tq : TqHeap α) (ent : Nat) (data : Option α) : Option (TqHeap α) := do
  let heads ← initListHead (Function.update tq.heads ent (some ⟨none, none⟩)) ent
  return { tq with heads := heads, data := Function.update tq.data ent data }

/-- The part of `tq_push` under the mutex, with `rc`. -/
def TqHeap.push (tq : TqHeap α) (ent : Nat) : Option (Bool × TqHeap α) := do
  if !tq.frozen then
    let heads ← listAddTail tq.heads ent tq.q
    return (true, { tq with heads := heads })
  else
    let heads ← free tq.heads ent
    return (false, { tq with heads := heads })

/-- `tq_pop` with the mutex in hand, from either `list_empty` on. `none` is an
empty list. -/
def TqHeap.pop (tq : TqHeap α) : Option (Option (Option α) × TqHeap α) := do
  let h ← tq.heads tq.q
  if h.next = some tq.q then
    return (none, tq)
  else
    let ent ← h.next
    let rval := tq.data ent
    let heads ← listDel tq.heads ent
    let heads ← free heads ent
    return (some rval, { tq with heads := heads })

/-! ## The threads -/

inductive PushCall (α : Type) where
  | idle
  | ready (data : Option α) (ent : Nat)
  | returned (rc : Bool)

/-- Producers are of any number. The last two fields are as in `PopCalls`. -/
structure HeapCalls (P : Type) (n : Nat) (α : Type) where
  tq : TqHeap α
  pushes : P → PushCall α
  calls : Fin n → PopCall α
  accepted : List (Option α)
  popped : List (Option α)

def HeapCalls.start (P : Type) (n : Nat) (α : Type) (q : Nat) : HeapCalls P n α where
  tq := .new q
  pushes _ := .idle
  calls _ := .idle
  accepted := []
  popped := []

/-- `calloc` gives an entry or NULL. -/
inductive HeapEvent (P : Type) (n : Nat) (α : Type) where
  | calloc (p : P) (data : Option α) (ent : Option Nat)
  | push (p : P) (wake : Option (Fin n))
  | freezethaw (frozen : Bool) (wake : Option (Fin n))
  | pop (i : Fin n)
  | spurious (i : Fin n)
  | resume (i : Fin n)

variable {P : Type} [DecidableEq P] {n : Nat}

def HeapCalls.callocEnt (s : HeapCalls P n α) (p : P) (data : Option α) :
    Option Nat → Option (HeapCalls P n α)
  | none => some { s with pushes := Function.update s.pushes p (.returned false) }
  | some ent =>
      if (s.tq.heads ent).isSome then none
      else do
        let tq ← s.tq.newEnt ent data
        return { s with tq := tq, pushes := Function.update s.pushes p (.ready data ent) }

def HeapCalls.popLocked (s : HeapCalls P n α) (i : Fin n) (empty : PopCall α) :
    Option (HeapCalls P n α) := do
  match ← s.tq.pop with
  | (none, tq) => return { s with tq := tq, calls := Function.update s.calls i empty }
  | (some rval, tq) =>
      return { s with
        tq := tq
        calls := Function.update s.calls i (.returned rval)
        popped := s.popped ++ [rval] }

/-- A step that nobody can take is `none`, and so is a fault. -/
def heapStep (s : HeapCalls P n α) : HeapEvent P n α → Option (HeapCalls P n α)
  | .calloc p data ent =>
      match s.pushes p with
      | .idle | .returned _ => s.callocEnt p data ent
      | .ready _ _ => none
  | .push p wake =>
      match s.pushes p with
      | .ready data ent => do
          let calls ← signal s.calls wake
          let (rc, tq) ← s.tq.push ent
          return { s with
            tq := tq
            pushes := Function.update s.pushes p (.returned rc)
            calls := calls
            accepted := if rc then s.accepted ++ [data] else s.accepted }
      | .idle | .returned _ => none
  | .freezethaw frozen wake => do
      let calls ← signal s.calls wake
      return { s with tq := { s.tq with frozen := frozen }, calls := calls }
  | .pop i =>
      match s.calls i with
      | .idle | .returned _ => s.popLocked i .waiting
      | .waiting | .woken => none
  | .spurious i =>
      if (s.calls i).isWaiting then
        some { s with calls := Function.update s.calls i .woken }
      else none
  | .resume i =>
      match s.calls i with
      | .woken => s.popLocked i (.returned none)
      | .idle | .waiting | .returned _ => none

/-- Every order of the calls of the producers `P` and of `n` consumers. -/
def heapThreads (P : Type) [DecidableEq P] (n : Nat) (α : Type) :
    Lts (HeapCalls P n α) (HeapEvent P n α) where
  init s := ∃ q, s = .start P n α q
  next s e s' := heapStep s e = some s'

end AlphaMiner
