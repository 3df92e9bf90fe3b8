import AlphaMiner.Lib.Rendezvous
import AlphaMiner.Model.PthreadBarrier
import Mathlib.Data.Fintype.Card

/-!
# The barrier holds its threads together

`barrier_lockstep`: whatever wakes them, and however slowly they get up, the threads do
what is asked of a barrier (`Rendezvous`). `barrier_wakes`: none sleeps when the last has
come. For `limit` threads the phase can wrap around without harm, since nobody is more
than one phase behind.
-/

namespace AlphaMiner

open Lib

/-! ## Where a thread can be -/

/-- After so many rounds. Who is woken is in this round or comes out of the last one. -/
def BarrierPc.Stands (rounds : Nat) (phase : UInt32) : BarrierPc → Nat → Nat → Prop
  | .outside, calls, returns => calls = rounds ∧ returns = rounds
  | .sleeping p, calls, returns => p = phase ∧ calls = rounds + 1 ∧ returns = rounds
  | .woken p, calls, returns =>
      (p = phase ∧ calls = rounds + 1 ∧ returns = rounds) ∨
      (p + 1 = phase ∧ calls = rounds ∧ returns + 1 = rounds)
  | .returning _, calls, returns => calls = rounds ∧ returns + 1 = rounds

section
variable {pc : BarrierPc} {rounds calls returns : Nat} {phase : UInt32}

theorem BarrierPc.Stands.called (h : pc.Stands rounds phase calls returns) :
    calls = rounds ∨ calls = rounds + 1 := by
  cases pc with
  | outside => exact .inl h.1
  | sleeping p => exact .inr h.2.1
  | woken p =>
      rcases h with h | h
      · exact .inr h.2.1
      · exact .inl h.2.1
  | returning serial => exact .inl h.1

/-- When the last one comes, all the others are in front of the phase it ends. -/
theorem BarrierPc.Stands.broadcast (h : pc.Stands rounds phase (rounds + 1) returns) :
    pc.broadcast.Stands (rounds + 1) (phase + 1) (rounds + 1) returns := by
  cases pc with
  | outside => exact absurd h.1 (Nat.succ_ne_self rounds)
  | sleeping p =>
      obtain ⟨rfl, -, rfl⟩ := h
      exact .inr ⟨rfl, rfl, rfl⟩
  | woken p =>
      rcases h with ⟨rfl, -, rfl⟩ | ⟨-, h, -⟩
      · exact .inr ⟨rfl, rfl, rfl⟩
      · exact absurd h (Nat.succ_ne_self rounds)
  | returning serial => exact absurd h.1 (Nat.succ_ne_self rounds)

end

namespace BarrierCalls

variable {limit : UInt32} {s s' : BarrierCalls limit.toNat}

/-- `count` is how many are in the round that is on, and one is missing. -/
structure Inv (s : BarrierCalls limit.toNat) : Prop where
  made : s.barrier.limit = limit
  count : s.barrier.count.toNat = (Finset.univ.filter fun i => s.calls i = s.serials + 1).card
  room : s.barrier.count.toNat < limit.toNat
  stands : ∀ i, (s.pcs i).Stands s.serials s.barrier.phase (s.calls i) (s.returns i)

theorem Inv.exists_behind (h : Inv s) : ∃ j, s.calls j = s.serials := by
  by_contra hnone
  rw [not_exists] at hnone
  have hall : (Finset.univ.filter fun i => s.calls i = s.serials + 1) = Finset.univ :=
    Finset.filter_true_of_mem fun j _ => (h.stands j).called.resolve_left (hnone j)
  have hcount := h.count
  rw [hall, Finset.card_univ, Fintype.card_fin] at hcount
  exact absurd h.room (Nat.not_lt.mpr (Nat.le_of_eq hcount.symm))

theorem Inv.serials_le (h : Inv s) (j : Fin limit.toNat) : s.serials ≤ s.calls j := by
  rcases (h.stands j).called with hj | hj
  · exact Nat.le_of_eq hj.symm
  · exact Nat.le_trans (Nat.le_succ _) (Nat.le_of_eq hj.symm)

/-- Who is in the round that is on is ahead of somebody. -/
theorem Inv.ahead_iff (h : Inv s) (i : Fin limit.toNat) :
    (∃ j, s.calls j < s.calls i) ↔ s.calls i = s.serials + 1 := by
  refine ⟨fun hahead => ?_, fun hcalls => ?_⟩
  · obtain ⟨j, hj⟩ := hahead
    have hle := h.serials_le j
    exact (h.stands i).called.resolve_left (by omega)
  · obtain ⟨j, hj⟩ := h.exists_behind
    exact ⟨j, by omega⟩

theorem Inv.setPc (h : Inv s) {i : Fin limit.toNat} {pc : BarrierPc}
    (hpc : pc.Stands s.serials s.barrier.phase (s.calls i) (s.returns i)) : Inv (s.setPc i pc) := by
  refine { h with stands := fun j => ?_ }
  by_cases hj : j = i
  · subst hj
    simpa only [BarrierCalls.setPc, Function.update_self] using hpc
  · simpa only [BarrierCalls.setPc, Function.update_of_ne hj] using h.stands j

/-! ## The steps -/

theorem pthreadBarrierWait_last {i : Fin limit.toNat}
    (hlast : s.barrier.limit ≤ s.barrier.count + 1) : s.pthreadBarrierWait i =
      { s with
        barrier := ⟨s.barrier.limit, 0, s.barrier.phase + 1⟩
        calls := Function.update s.calls i (s.calls i + 1)
        pcs := fun j => (s.pcs j).broadcast
        serials := s.serials + 1 }.setPc i (.returning true) := if_pos hlast

theorem pthreadBarrierWait_sleep {i : Fin limit.toNat}
    (hlast : ¬ s.barrier.limit ≤ s.barrier.count + 1) : s.pthreadBarrierWait i =
      { s with
        barrier := ⟨s.barrier.limit, s.barrier.count + 1, s.barrier.phase⟩
        calls := Function.update s.calls i (s.calls i + 1) }.setPc i (.sleeping s.barrier.phase) :=
  if_neg hlast

/-- All that can happen. -/
theorem step_cases {e : BarrierEvent limit.toNat} (hstep : s.step e = some s') :
    (∃ i, s.pcs i = .outside ∧ s' = s.pthreadBarrierWait i) ∨
    (∃ i p, s.pcs i = .sleeping p ∧ s' = s.setPc i (.woken p)) ∨
    (∃ i p, s.pcs i = .woken p ∧
      s' = s.setPc i (if p = s.barrier.phase then .sleeping p else .returning false)) ∨
    ∃ i serial, s.pcs i = .returning serial ∧
      s' = { s with returns := Function.update s.returns i (s.returns i + 1) }.setPc i .outside := by
  cases e with
  | call i =>
      simp only [step] at hstep
      cases hpc : s.pcs i with
      | outside =>
          rw [hpc] at hstep
          exact .inl ⟨i, hpc, (Option.some.inj hstep).symm⟩
      | _ =>
          rw [hpc] at hstep
          cases hstep
  | spurious i =>
      simp only [step] at hstep
      cases hpc : s.pcs i with
      | sleeping p =>
          rw [hpc] at hstep
          exact .inr (.inl ⟨i, p, hpc, (Option.some.inj hstep).symm⟩)
      | _ =>
          rw [hpc] at hstep
          cases hstep
  | resume i =>
      simp only [step] at hstep
      cases hpc : s.pcs i with
      | woken p =>
          rw [hpc] at hstep
          exact .inr (.inr (.inl ⟨i, p, hpc, (Option.some.inj hstep).symm⟩))
      | _ =>
          rw [hpc] at hstep
          cases hstep
  | leave i =>
      simp only [step] at hstep
      cases hpc : s.pcs i with
      | returning serial =>
          rw [hpc] at hstep
          exact .inr (.inr (.inr ⟨i, serial, hpc, (Option.some.inj hstep).symm⟩))
      | _ =>
          rw [hpc] at hstep
          cases hstep

theorem Inv.count_succ (h : Inv s) :
    (s.barrier.count + 1).toNat = s.barrier.count.toNat + 1 := by
  have hroom := h.room
  have hlimit := limit.toNat_lt
  rw [UInt32.toNat_add, UInt32.toNat_one]
  exact Nat.mod_eq_of_lt (by omega)

theorem Inv.last_iff (h : Inv s) : s.barrier.limit ≤ s.barrier.count + 1 ↔
    limit.toNat ≤ s.barrier.count.toNat + 1 := by
  rw [h.made, UInt32.le_iff_toNat_le, h.count_succ]

/-- One more is in the round. -/
theorem Inv.card_call (h : Inv s) {i : Fin limit.toNat} (hcalls : s.calls i = s.serials) :
    (Finset.univ.filter fun j =>
      Function.update s.calls i (s.calls i + 1) j = s.serials + 1).card =
      s.barrier.count.toNat + 1 := by
  have hinsert : (Finset.univ.filter fun j =>
      Function.update s.calls i (s.calls i + 1) j = s.serials + 1) =
      insert i (Finset.univ.filter fun j => s.calls j = s.serials + 1) := by
    ext j
    by_cases hj : j = i
    · subst hj
      simp [hcalls]
    · simp [hj]
  have hnot : i ∉ Finset.univ.filter fun j => s.calls j = s.serials + 1 := by
    simp [hcalls]
  rw [hinsert, Finset.card_insert_of_notMem hnot, ← h.count]

/-- The last one comes when all the others have. -/
theorem Inv.all_called (h : Inv s) {i : Fin limit.toNat} (hcalls : s.calls i = s.serials)
    (hlast : s.barrier.limit ≤ s.barrier.count + 1) (j : Fin limit.toNat) :
    Function.update s.calls i (s.calls i + 1) j = s.serials + 1 := by
  have hfull := Nat.le_antisymm (h.last_iff.mp hlast) h.room
  have huniv := (Finset.card_eq_iff_eq_univ _).mp
    ((h.card_call hcalls).trans (hfull.symm.trans (Fintype.card_fin _).symm))
  have hmem := Finset.mem_univ j
  rw [← huniv] at hmem
  exact (Finset.mem_filter.mp hmem).2

theorem Inv.last (h : Inv s) {i : Fin limit.toNat} (hcalls : s.calls i = s.serials)
    (hreturns : s.returns i = s.serials) (hlast : s.barrier.limit ≤ s.barrier.count + 1) :
    Inv (s.pthreadBarrierWait i) := by
  have hall := h.all_called hcalls hlast
  rw [pthreadBarrierWait_last hlast]
  refine ⟨h.made, ?_, Fin.pos i, fun j => ?_⟩
  · rw [Finset.filter_false_of_mem fun j _ => ?_]
    · rfl
    · simp only [BarrierCalls.setPc, hall]
      exact Nat.ne_of_lt (Nat.lt_succ_self _)
  · by_cases hj : j = i
    · subst hj
      simp only [BarrierCalls.setPc, Function.update_self, hreturns, hcalls]
      exact ⟨rfl, rfl⟩
    · have hstands := h.stands j
      have hj' := hall j
      rw [Function.update_of_ne hj] at hj'
      rw [hj'] at hstands
      simp only [BarrierCalls.setPc, Function.update_of_ne hj, hj']
      exact hstands.broadcast

theorem Inv.sleep (h : Inv s) {i : Fin limit.toNat} (hcalls : s.calls i = s.serials)
    (hreturns : s.returns i = s.serials) (hlast : ¬ s.barrier.limit ≤ s.barrier.count + 1) :
    Inv (s.pthreadBarrierWait i) := by
  have hroom := Nat.not_le.mp fun hfull => hlast (h.last_iff.mpr hfull)
  rw [pthreadBarrierWait_sleep hlast]
  refine ⟨h.made, h.count_succ.trans (h.card_call hcalls).symm, h.count_succ ▸ hroom, fun j => ?_⟩
  by_cases hj : j = i
  · subst hj
    simp only [BarrierCalls.setPc, Function.update_self, hreturns, hcalls]
    exact ⟨rfl, rfl, rfl⟩
  · simp only [BarrierCalls.setPc, Function.update_of_ne hj]
    exact h.stands j

theorem Inv.call (h : Inv s) {i : Fin limit.toNat} (hpc : s.pcs i = .outside) :
    Inv (s.pthreadBarrierWait i) := by
  obtain ⟨hcalls, hreturns⟩ : s.calls i = s.serials ∧ s.returns i = s.serials := by
    have hstands := h.stands i
    rwa [hpc] at hstands
  by_cases hlast : s.barrier.limit ≤ s.barrier.count + 1
  · exact h.last hcalls hreturns hlast
  · exact h.sleep hcalls hreturns hlast

theorem Inv.leave (h : Inv s) {i : Fin limit.toNat} {serial : Bool}
    (hpc : s.pcs i = .returning serial) :
    Inv ({ s with returns := Function.update s.returns i (s.returns i + 1) }.setPc i .outside) := by
  have hstands := h.stands i
  rw [hpc] at hstands
  refine { h with stands := fun j => ?_ }
  by_cases hj : j = i
  · subst hj
    simp only [BarrierCalls.setPc, Function.update_self]
    exact hstands
  · simpa only [BarrierCalls.setPc, Function.update_of_ne hj] using h.stands j

/-- Whom a look at the phase sends back to sleep. -/
theorem Inv.resume (h : Inv s) {i : Fin limit.toNat} {p : UInt32} (hpc : s.pcs i = .woken p) :
    (if p = s.barrier.phase then BarrierPc.sleeping p else .returning false).Stands s.serials
      s.barrier.phase (s.calls i) (s.returns i) := by
  have hstands := h.stands i
  rw [hpc] at hstands
  rcases hstands with ⟨rfl, hcalls, hreturns⟩ | ⟨hphase, hcalls, hreturns⟩
  · rw [if_pos rfl]
    exact ⟨rfl, hcalls, hreturns⟩
  · have hne : p ≠ s.barrier.phase := by
      intro heq
      rw [← heq] at hphase
      exact absurd hphase (by simp)
    rw [if_neg hne]
    exact ⟨hcalls, hreturns⟩

theorem Inv.step (h : Inv s) {e : BarrierEvent limit.toNat} (hstep : s.step e = some s') :
    Inv s' := by
  obtain ⟨i, hpc, rfl⟩ | ⟨i, p, hpc, rfl⟩ | ⟨i, p, hpc, rfl⟩ | ⟨i, serial, hpc, rfl⟩ :=
    step_cases hstep
  · exact h.call hpc
  · have hstands := h.stands i
    rw [hpc] at hstands
    exact h.setPc (.inl hstands)
  · exact h.setPc (h.resume hpc)
  · exact h.leave hpc

/-! ## What it does for its threads -/

/-- What is seen of it from outside. -/
def shown {n : Nat} (s : BarrierCalls n) : Rendezvous (Fin n) := ⟨s.calls, s.returns⟩

theorem shown_wait (i : Fin limit.toNat) : (s.pthreadBarrierWait i).shown =
    { s.shown with calls := Function.update s.calls i (s.calls i + 1) } := by
  by_cases hlast : s.barrier.limit ≤ s.barrier.count + 1
  · rw [pthreadBarrierWait_last hlast]
    rfl
  · rw [pthreadBarrierWait_sleep hlast]
    rfl

/-- A step is a call or a return, or is not seen. -/
theorem Inv.next (h : Inv s) {e : BarrierEvent limit.toNat} (hstep : s.step e = some s') :
    s'.shown = s.shown ∨ ∃ a, Rendezvous.Next s.shown a s'.shown := by
  obtain ⟨i, hpc, rfl⟩ | ⟨i, p, hpc, rfl⟩ | ⟨i, p, hpc, rfl⟩ | ⟨i, serial, hpc, rfl⟩ :=
    step_cases hstep
  · have hstands := h.stands i
    rw [hpc] at hstands
    refine .inr ⟨.call i, ?_⟩
    rw [shown_wait]
    exact .call i (hstands.1.trans hstands.2.symm)
  · exact .inl rfl
  · exact .inl rfl
  · obtain ⟨hcalls, hreturns⟩ : s.calls i = s.serials ∧ s.returns i + 1 = s.serials := by
      have hstands := h.stands i
      rwa [hpc] at hstands
    have hin : s.returns i < s.calls i := by omega
    exact .inr ⟨.ret i, .ret i hin fun j => Nat.le_trans (Nat.le_of_eq hcalls) (h.serials_le j)⟩

theorem inv_of_start {barrier : PthreadBarrier} (h : pthreadBarrierInit limit = some barrier) :
    Inv (.start limit.toNat barrier) := by
  obtain ⟨hzero, heq⟩ := Option.ite_none_left_eq_some.mp h
  cases heq
  refine ⟨rfl, ?_, ?_, fun _ => ⟨rfl, rfl⟩⟩
  · rw [Finset.filter_false_of_mem fun j _ => ?_]
    · rfl
    · exact Nat.ne_of_lt Nat.zero_lt_one
  · refine Nat.pos_of_ne_zero fun hlimit => hzero ?_
    exact UInt32.toNat_inj.mp hlimit

theorem inv_of_reachable (h : (barrierThreads limit).Reachable s) : Inv s := by
  refine h.invariant (fun s hs => ?_) fun _ _ _ hs hnext => hs.step hnext
  obtain ⟨barrier, hinit, rfl⟩ := hs
  exact inv_of_start hinit

theorem rendezvous_of_reachable (h : (barrierThreads limit).Reachable s) :
    (Rendezvous.lts (Fin limit.toNat)).Reachable s.shown := by
  have hrun : ∃ a, (Rendezvous.lts (Fin limit.toNat)).Reachable a ∧ s.shown = a ∧ Inv s := by
    refine h.simulate (R := fun s a => s.shown = a ∧ Inv s) (fun s hs => ?_)
      fun s e s' a hR hnext => ?_
    · obtain ⟨barrier, hinit, rfl⟩ := hs
      exact ⟨_, rfl, rfl, inv_of_start hinit⟩
    · obtain ⟨rfl, hs⟩ := hR
      rcases hs.next hnext with hsame | ⟨a, ha⟩
      · exact .inl ⟨hsame, hs.step hnext⟩
      · exact .inr ⟨a, _, ha, rfl, hs.step hnext⟩
  obtain ⟨a, hreach, rfl, -⟩ := hrun
  exact hreach

end BarrierCalls

/-- Nobody returns from a call before all have made theirs, and one of them is told that it
was the last. -/
theorem barrier_lockstep {limit : UInt32} {s : BarrierCalls limit.toNat}
    (h : (barrierThreads limit).Reachable s) :
    (Rendezvous.lts (Fin limit.toNat)).Reachable ⟨s.calls, s.returns⟩ ∧
    (∀ i j, s.returns i ≤ s.calls j) ∧ (∀ j, s.serials ≤ s.calls j) ∧
    ∃ j, s.calls j = s.serials := by
  have hinv := BarrierCalls.inv_of_reachable h
  have hreach := BarrierCalls.rendezvous_of_reachable h
  exact ⟨hreach, (Rendezvous.lockstep hreach).behind, hinv.serials_le, hinv.exists_behind⟩

/-- Who sleeps waits for somebody, and who was woken goes back to sleep only for that. -/
theorem barrier_wakes {limit : UInt32} {s : BarrierCalls limit.toNat}
    (h : (barrierThreads limit).Reachable s) :
    (∀ i p, s.pcs i = .sleeping p → ∃ j, s.calls j < s.calls i) ∧
    ∀ i s', s.step (.resume i) = some s' →
      ((∃ p, s'.pcs i = .sleeping p) ↔ ∃ j, s.calls j < s.calls i) := by
  have hinv := BarrierCalls.inv_of_reachable h
  refine ⟨fun i p hpc => ?_, fun i s' hstep => ?_⟩
  · have hstands := hinv.stands i
    rw [hpc] at hstands
    exact (hinv.ahead_iff i).mpr hstands.2.1
  · rw [hinv.ahead_iff]
    simp only [BarrierCalls.step] at hstep
    cases hpc : s.pcs i with
    | woken p =>
        have hresume := hinv.resume hpc
        rw [hpc] at hstep
        cases hstep
        simp only [BarrierCalls.setPc, Function.update_self]
        by_cases hphase : p = s.barrier.phase
        · rw [if_pos hphase] at hresume ⊢
          exact ⟨fun _ => hresume.2.1, fun _ => ⟨p, rfl⟩⟩
        · rw [if_neg hphase] at hresume ⊢
          refine ⟨fun hsleep => ?_, fun hcalls => ?_⟩
          · obtain ⟨p', hp'⟩ := hsleep
            cases hp'
          · exact absurd (hresume.1.symm.trans hcalls) (Nat.succ_ne_self _).symm
    | _ =>
        rw [hpc] at hstep
        cases hstep

/-- One of two threads is woken for nothing, and then slow to get up. -/
theorem exists_slow : ∃ s : BarrierCalls 2, (barrierThreads 2).Reachable s ∧ s.calls 1 = 2 ∧
    s.returns 0 = 0 ∧ s.pcs 0 = .woken 0 := by
  have hrun : ∃ s ∈ ([.call 0, .spurious 0, .resume 0, .call 1, .leave 1, .call 1] :
      List (BarrierEvent 2)).foldlM BarrierCalls.step
        (BarrierCalls.start 2 ⟨2, 0, 0⟩),
      s.calls 1 = 2 ∧ s.returns 0 = 0 ∧ s.pcs 0 = .woken 0 := by decide +kernel
  obtain ⟨s, hrun, hs⟩ := hrun
  exact ⟨s, Lts.Reachable.replay (fun _ _ _ h => h) (.init ⟨_, rfl, rfl⟩) hrun, hs⟩

theorem barrier_lockstep_slow : ∃ s : BarrierCalls 2, s.calls 1 = 2 ∧
    s.returns 0 = 0 ∧ s.returns 1 ≤ s.calls 0 := by
  obtain ⟨s, hreach, hcalls, hreturns, -⟩ := exists_slow
  exact ⟨s, hcalls, hreturns, (barrier_lockstep hreach).2.1 (1 : Fin 2) (0 : Fin 2)⟩

theorem barrier_wakes_slow : ∃ s : BarrierCalls 2, s.pcs 0 = .woken 0 ∧
    ∀ s', s.step (.resume 0) = some s' →
      ((∃ p, s'.pcs 0 = .sleeping p) ↔ ∃ j, s.calls j < s.calls 0) := by
  obtain ⟨s, hreach, -, -, hpc⟩ := exists_slow
  exact ⟨s, hpc, (barrier_wakes hreach).2 (0 : Fin 2)⟩

end AlphaMiner
