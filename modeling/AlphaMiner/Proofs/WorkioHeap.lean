import AlphaMiner.Lib.PointsTo
import AlphaMiner.Model.Workio
import Mathlib.Algebra.BigOperators.Group.Finset.Basic
import Mathlib.Algebra.BigOperators.Fin
import Mathlib.Algebra.Order.Group.Multiset
import Mathlib.Data.List.ReduceOption
import Mathlib.Tactic.Abel

/-!
# Who holds what of the heap

A pointer that is sent is worth what it points to. So beside the threads with their
pointers there are the same threads with typed pointers, that bring along what is stored
there (`Typed`), and forgetting that gives back the former (`erase`). The cells of
everything that is in a queue or in a thread's hand are to make up the heap
(`Typed.cells`).

Moving a pointer from one holder to another moves its cells, so the sum stays. What is
read or freed is held by whoever does it.
-/

namespace AlphaMiner

open Lib

variable {n : Nat} {W : Type}

/-! ## Typed pointers -/

inductive SentCmd (n : Nat) (W : Type) where
  | getWork (wc : Nat) (thr : Fin n)
  | submitWork (wc work : Nat) (thr : Fin n) (w : W)

namespace SentCmd

def ptr : SentCmd n W → Nat
  | .getWork wc _ => wc
  | .submitWork wc _ _ _ => wc

def record : SentCmd n W → WorkioCmd n
  | .getWork _ thr => ⟨.getWork, some thr, none⟩
  | .submitWork _ work thr _ => ⟨.submitWork, some thr, some work⟩

def cells : SentCmd n W → Multiset (Nat × WorkBlock n W)
  | .getWork wc thr => {(wc, .cmd ⟨.getWork, some thr, none⟩)}
  | .submitWork wc work thr w =>
      {(wc, .cmd ⟨.submitWork, some thr, some work⟩)} + {(work, .work w)}

end SentCmd

/-- A work and where it is. -/
def workCells (r : Nat × W) : Multiset (Nat × WorkBlock n W) := {(r.1, .work r.2)}

abbrev Typed (n : Nat) (W : Type) := Workio n (SentCmd n W) (Nat × W) W

/-! ## Forgetting the types -/

def MinerPc.erase : MinerPc (SentCmd n W) (Nat × W) W → MinerPc Nat Nat W
  | .scanning => .scanning
  | .locked => .locked
  | .requesting wc => .requesting wc.ptr
  | .popping => .popping
  | .waiting => .waiting
  | .woken => .woken
  | .copying workHeap => .copying workHeap.1
  | .submitting wc work => .submitting wc.ptr work
  | .exiting => .exiting
  | .exited => .exited

def WorkioPc.erase : WorkioPc (SentCmd n W) (Nat × W) → WorkioPc Nat Nat
  | .starting => .starting
  | .popping => .popping
  | .waiting => .waiting
  | .woken => .woken
  | .processing wc => .processing wc.ptr
  | .replying wc retWork => .replying wc.ptr retWork.1
  | .freeing wc ok => .freeing wc.ptr ok
  | .ending => .ending
  | .ended => .ended

def ThreadQ.map {α β : Type} (f : α → β) (tq : ThreadQ α) : ThreadQ β :=
  ⟨tq.q.map (Option.map f), tq.frozen⟩

namespace Typed

def erase (d : Typed n W) : Workio n Nat Nat W where
  workQ := d.workQ.map SentCmd.ptr
  qs i := (d.qs i).map Prod.fst
  miners i := (d.miners i).erase
  workio := d.workio.erase
  gWorkLock := d.gWorkLock
  requests := d.requests
  fetched := d.fetched
  received := d.received
  submitted := d.submitted
  processed := d.processed

theorem erase_setMiner (d : Typed n W) (i : Fin n) (pc : MinerPc (SentCmd n W) (Nat × W) W) :
    erase (d.setMiner i pc) = (erase d).setMiner i pc.erase := by
  have h : (fun j => (Function.update d.miners i pc j).erase) =
      Function.update (fun j => (d.miners j).erase) i pc.erase :=
    funext fun j => Function.apply_update (fun _ => MinerPc.erase) d.miners i pc j
  simp only [erase, Workio.setMiner, h]

def setQ (d : Typed n W) (i : Fin n) (tq : ThreadQ (Nat × W)) : Typed n W :=
  { d with qs := Function.update d.qs i tq }

theorem erase_setQ (d : Typed n W) (i : Fin n) (tq : ThreadQ (Nat × W)) :
    erase (setQ d i tq) =
      { erase d with qs := Function.update (erase d).qs i (tq.map Prod.fst) } := by
  have h : (fun j => (Function.update d.qs i tq j).map Prod.fst) =
      Function.update (fun j => (d.qs j).map Prod.fst) i (tq.map Prod.fst) :=
    funext fun j => Function.apply_update (fun _ => ThreadQ.map Prod.fst) d.qs i tq j
  simp only [erase, setQ, h]

theorem erase_failRequest (d : Typed n W) (i : Fin n) :
    erase (d.failRequest i) = (erase d).failRequest i :=
  erase_setMiner { d with gWorkLock := none } i .exiting

theorem tqPushEnt_map {α β : Type} (f : α → β) (ent : Bool) (tq : ThreadQ α) (data : Option α) :
    Workio.tqPushEnt ent (tq.map f) (data.map f) =
      ((Workio.tqPushEnt ent tq data).1, (Workio.tqPushEnt ent tq data).2.map f) := by
  obtain ⟨q, frozen⟩ := tq
  cases ent <;> cases frozen <;> simp [Workio.tqPushEnt, tqPush, ThreadQ.map]

theorem erase_pushWork (d : Typed n W) (ent : Bool) (data : Option (SentCmd n W)) :
    (erase d).pushWork ent (data.map SentCmd.ptr) =
      ((d.pushWork ent data).1, erase (d.pushWork ent data).2) := by
  have hworkio : (if ent then d.workio.erase.signalled else d.workio.erase) =
      (if ent then d.workio.signalled else d.workio).erase := by
    cases ent
    · rfl
    · cases d.workio <;> rfl
  simp only [Workio.pushWork, erase, tqPushEnt_map, hworkio]

theorem erase_pushReply (d : Typed n W) (i : Fin n) (ent : Bool) (r : Nat × W) :
    (erase d).pushReply i ent r.1 =
      ((d.pushReply i ent r).1, erase (d.pushReply i ent r).2) := by
  have hpush := tqPushEnt_map Prod.fst ent (d.qs i) (some r)
  have hsignal : (d.miners i).erase.signalled = (d.miners i).signalled.erase := by
    cases d.miners i <;> rfl
  have hminers : (if ent then Function.update (fun j => (d.miners j).erase) i
        (d.miners i).erase.signalled else fun j => (d.miners j).erase) =
      fun j => ((if ent then Function.update d.miners i (d.miners i).signalled else d.miners) j).erase := by
    cases ent
    · rfl
    · rw [hsignal]
      exact (funext fun j =>
        Function.apply_update (fun _ => MinerPc.erase) d.miners i (d.miners i).signalled j).symm
  have hqs := congrArg Workio.qs (erase_setQ d i (Workio.tqPushEnt ent (d.qs i) (some r)).2)
  simp only [Option.map_some] at hpush
  simp only [Workio.pushReply, erase, setQ, hpush, hminers] at hqs ⊢
  rw [hqs]

end Typed

/-! ## Cells -/

section
variable {α β : Type}

def sentCells (cells : α → Multiset β) (q : List (Option α)) : Multiset β :=
  (q.reduceOption.map cells).sum

theorem sentCells_none (cells : α → Multiset β) (q : List (Option α)) :
    sentCells cells (none :: q) = sentCells cells q := rfl

theorem sentCells_some (cells : α → Multiset β) (a : α) (q : List (Option α)) :
    sentCells cells (some a :: q) = cells a + sentCells cells q := by
  rw [sentCells, List.reduceOption_cons_of_some, List.map_cons, List.sum_cons, sentCells]

theorem sentCells_concat (cells : α → Multiset β) (q : List (Option α)) (data : Option α) :
    sentCells cells (q ++ [data]) = sentCells cells q + data.elim 0 cells := by
  rw [sentCells, List.reduceOption_append, List.map_append, List.sum_append, sentCells]
  cases data <;> simp [List.reduceOption]

end

def MinerPc.cells : MinerPc (SentCmd n W) (Nat × W) W → Multiset (Nat × WorkBlock n W)
  | .requesting wc | .submitting wc _ => wc.cells
  | .copying workHeap => workCells workHeap
  | _ => 0

def WorkioPc.cells : WorkioPc (SentCmd n W) (Nat × W) → Multiset (Nat × WorkBlock n W)
  | .processing wc | .freeing wc _ => wc.cells
  | .replying wc retWork => wc.cells + workCells retWork
  | _ => 0

namespace Typed

/-- What the miners have and what is in their queues. -/
def minerCells (d : Typed n W) (i : Fin n) : Multiset (Nat × WorkBlock n W) :=
  (d.miners i).cells + sentCells workCells (d.qs i).q

def cells (d : Typed n W) : Multiset (Nat × WorkBlock n W) :=
  d.workio.cells + sentCells SentCmd.cells d.workQ.q + ∑ i, minerCells d i

/-- All but what concerns one miner. -/
def otherCells (d : Typed n W) (i : Fin n) : Multiset (Nat × WorkBlock n W) :=
  ∑ j ∈ Finset.univ.erase i, minerCells d j

theorem cells_eq (d : Typed n W) (i : Fin n) :
    cells d = d.workio.cells + sentCells SentCmd.cells d.workQ.q +
      ((d.miners i).cells + sentCells workCells (d.qs i).q + otherCells d i) := by
  rw [cells, ← Finset.add_sum_erase _ _ (Finset.mem_univ i)]
  rfl

theorem otherCells_congr {d d' : Typed n W} {i : Fin n}
    (hminers : ∀ j, j ≠ i → d'.miners j = d.miners j) (hqs : ∀ j, j ≠ i → d'.qs j = d.qs j) :
    otherCells d' i = otherCells d i := by
  refine Finset.sum_congr rfl fun j hj => ?_
  have hne := Finset.ne_of_mem_erase hj
  rw [minerCells, minerCells, hminers j hne, hqs j hne]

theorem otherCells_of_eq {d d' : Typed n W} (hminers : d'.miners = d.miners) (hqs : d'.qs = d.qs)
    (i : Fin n) : otherCells d' i = otherCells d i :=
  otherCells_congr (fun _ _ => by rw [hminers]) fun _ _ => by rw [hqs]

theorem cells_setMiner (d : Typed n W) (i : Fin n) (pc : MinerPc (SentCmd n W) (Nat × W) W) :
    cells (d.setMiner i pc) = d.workio.cells + sentCells SentCmd.cells d.workQ.q +
      (pc.cells + sentCells workCells (d.qs i).q + otherCells d i) := by
  have hother : otherCells (d.setMiner i pc) i = otherCells d i :=
    otherCells_congr (fun _ hj => Function.update_of_ne hj _ _) fun _ _ => rfl
  rw [cells_eq _ i, hother]
  simp only [Workio.setMiner, Function.update_self]

theorem cells_failRequest (d : Typed n W) (i : Fin n) :
    cells (d.failRequest i) = d.workio.cells + sentCells SentCmd.cells d.workQ.q +
      (0 + sentCells workCells (d.qs i).q + otherCells d i) :=
  cells_setMiner { d with gWorkLock := none } i .exiting

theorem cells_setMiner_same {d : Typed n W} {i : Fin n} {pc : MinerPc (SentCmd n W) (Nat × W) W}
    (h : pc.cells = (d.miners i).cells) : cells (d.setMiner i pc) = cells d := by
  rw [cells_setMiner, cells_eq d i, h]

theorem otherCells_setQ (d : Typed n W) (i : Fin n) (tq : ThreadQ (Nat × W)) :
    otherCells (setQ d i tq) i = otherCells d i :=
  otherCells_congr (fun _ _ => rfl) fun _ hj => Function.update_of_ne hj _ _

theorem cells_setQ (d : Typed n W) (i : Fin n) (tq : ThreadQ (Nat × W)) :
    cells (setQ d i tq) = d.workio.cells + sentCells SentCmd.cells d.workQ.q +
      ((d.miners i).cells + sentCells workCells tq.q + otherCells d i) := by
  rw [cells_eq _ i, otherCells_setQ]
  simp only [setQ, Function.update_self]

theorem cells_signalled (pc : MinerPc (SentCmd n W) (Nat × W) W) : pc.signalled.cells = pc.cells := by
  cases pc <;> rfl

theorem cells_workio_signalled (pc : WorkioPc (SentCmd n W) (Nat × W)) :
    pc.signalled.cells = pc.cells := by
  cases pc <;> rfl

theorem cells_setWorkio_same {d : Typed n W} {pc : WorkioPc (SentCmd n W) (Nat × W)}
    (h : pc.cells = d.workio.cells) : cells (d.setWorkio pc) = cells d := by
  simp only [cells, Workio.setWorkio, h]
  rfl

end Typed

/-! ## The heap -/

section
variable {heap : WorkHeap n W} {rest : Multiset (Nat × WorkBlock n W)}

theorem readCmd_owned {c : SentCmd n W} (h : Owns heap (c.cells + rest)) :
    readCmd heap c.ptr = some c.record := by
  cases c with
  | getWork wc thr =>
      have hread := h.read
      simp only [readCmd, SentCmd.ptr, hread, SentCmd.record]
  | submitWork wc work thr w =>
      rw [SentCmd.cells, add_assoc] at h
      have hread := h.read
      simp only [readCmd, SentCmd.ptr, hread, SentCmd.record]

theorem work_owned {r : Nat × W} (h : Owns heap (workCells r + rest)) :
    readWork heap r.1 = some r.2 ∧ heap.free r.1 = some (Function.update heap r.1 none) ∧
      Owns (Function.update heap r.1 none) rest := by
  have hread : heap r.1 = some (.work r.2) := h.read
  refine ⟨?_, ?_, h.free⟩
  · simp only [readWork, hread]
  · simp only [WorkHeap.free, hread]

/-- Who has a command can free it. -/
theorem workioCmdFree_owned {c : SentCmd n W} (h : Owns heap (c.cells + rest)) :
    ∃ heap', workioCmdFree heap c.ptr = some heap' ∧ Owns heap' rest := by
  cases c with
  | getWork wc thr =>
      have hread : heap wc = _ := h.read
      refine ⟨_, ?_, h.free⟩
      simp only [workioCmdFree, SentCmd.ptr, hread, WorkHeap.free]
  | submitWork wc work thr w =>
      rw [SentCmd.cells, add_assoc] at h
      have hread : heap wc = _ := h.read
      have hwork : Owns heap (workCells (work, w) + _) := h.of_eq (add_left_comm _ _ _)
      obtain ⟨-, hfree, howns⟩ := work_owned hwork
      have hleft : Function.update heap work none wc = _ := howns.read
      refine ⟨_, ?_, howns.free⟩
      simp only [workioCmdFree, SentCmd.ptr, hread]
      rw [hfree, Option.bind_some]
      simp only [WorkHeap.free, hleft]

/-- The work of a share. -/
theorem readWork_owned {wc work : Nat} {thr : Fin n} {w : W}
    (h : Owns heap ((SentCmd.submitWork wc work thr w).cells + rest)) :
    readWork heap work = some w := by
  rw [SentCmd.cells, add_assoc] at h
  have hwork : Owns heap (workCells (work, w) + _) := h.of_eq (add_left_comm _ _ _)
  exact (work_owned hwork).1

end

end AlphaMiner
