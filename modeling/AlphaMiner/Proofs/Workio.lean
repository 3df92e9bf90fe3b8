import AlphaMiner.Proofs.WorkioSound

/-!
# The work I/O thread and the miners

What is true of them in every run: nobody reads or frees what is not there, and nothing
is left behind that nobody holds (`workio_owns`); a miner only receives what was fetched
for a request of its own, and what it gets is the answer to its last one
(`workio_answers`); shares are handed on in the order in which they were taken, each to one
call of `workio_submit_work`, which may try it several times, and none is passed over
(`workio_shares`).

For that the pointers of a state are given their types (`Represents`), and every step of
the pointers is followed.
-/

namespace AlphaMiner

open Lib

variable {n : Nat} {W : Type}

/-! ## Following the pointers -/

def MinerPc.emptyHanded {C R : Type} : MinerPc C R W → Bool
  | .requesting _ | .copying _ | .submitting _ _ => false
  | .scanning | .locked | .popping | .waiting | .woken | .exiting | .exited => true

def WorkioPc.emptyHanded {C R : Type} : WorkioPc C R → Bool
  | .processing _ | .replying _ _ | .freeing _ _ => false
  | .starting | .popping | .waiting | .woken | .ending | .ended => true

open Typed

/-- The pointers are what the typed ones are without their types, and the heap is what
they point to. -/
structure Represents (s : WorkioHeap n W) (d : Typed n W) : Prop where
  threads : s.threads = d.erase
  owns : Owns s.heap d.cells
  fault : s.fault = false
  sound : d.Sound

theorem represents_start : Represents (.start n W) (.start n (SentCmd n W) (Nat × W) W) where
  threads := rfl
  owns := by
    refine Owns.empty.of_eq ?_
    have hzero : ∀ i : Fin n,
        minerCells (.start n (SentCmd n W) (Nat × W) W) i = 0 := fun i => rfl
    rw [cells, Finset.sum_congr rfl fun i _ => hzero i, Finset.sum_const_zero]
    rfl
  fault := rfl
  sound := sound_start

/-- Nothing changes hands. -/
theorem Represents.same {s : WorkioHeap n W} {d d' : Typed n W} {t : Workio n Nat Nat W}
    (h : Represents s d) (ht : t = d'.erase) (hsound : d'.Sound) (hcells : d'.cells = d.cells) :
    Represents { s with threads := t } d' where
  threads := ht
  owns := h.owns.of_eq hcells.symm
  fault := h.fault
  sound := hsound

theorem erase_setMiner_of {s : WorkioHeap n W} {d : Typed n W} (h : Represents s d) (i : Fin n)
    (pc : MinerPc (SentCmd n W) (Nat × W) W) :
    s.threads.setMiner i pc.erase = Typed.erase (d.setMiner i pc) := by
  rw [h.threads, erase_setMiner]

/-- A miner goes on by itself. -/
theorem Represents.keep {s : WorkioHeap n W} {d : Typed n W} (h : Represents s d) {i : Fin n}
    {old : MinerPc (SentCmd n W) (Nat × W) W} (hold : d.miners i = old)
    (pc : MinerPc (SentCmd n W) (Nat × W) W) (hcells : pc.cells = old.cells)
    (hhand : pc.inHand = old.inHand) (hasked : old.asked = true → pc.asked = true)
    (hfits : pc.Fits i) (hholds : pc.holdsLock = old.holdsLock) :
    Represents { s with threads := s.threads.setMiner i pc.erase } (d.setMiner i pc) := by
  subst hold
  exact h.same (erase_setMiner_of h i pc) (h.sound.keep rfl pc hhand hasked hfits hholds)
    (cells_setMiner_same hcells)

/-- And gives the lock back. -/
theorem Represents.release {s : WorkioHeap n W} {d : Typed n W} (h : Represents s d) {i : Fin n}
    {old : MinerPc (SentCmd n W) (Nat × W) W} (hold : d.miners i = old)
    (pc : MinerPc (SentCmd n W) (Nat × W) W) (hcells : pc.cells = old.cells)
    (hhand : pc.inHand = old.inHand) (hasked : old.asked = true → pc.asked = true)
    (hfits : pc.Fits i) (hheld : old.holdsLock = true) (hholds : pc.holdsLock = false) :
    Represents { s with threads := { s.threads with gWorkLock := none }.setMiner i pc.erase }
      ({ d with gWorkLock := none }.setMiner i pc) := by
  subst hold
  refine h.same ?_ (h.sound.release rfl pc hhand hasked hfits hheld hholds)
    (cells_setMiner_same (d := { d with gWorkLock := none }) hcells)
  rw [h.threads, erase_setMiner]
  rfl

/-- The work I/O thread goes on by itself. -/
theorem Represents.workio {s : WorkioHeap n W} {d : Typed n W} (h : Represents s d)
    (pc : WorkioPc (SentCmd n W) (Nat × W)) (hcells : pc.cells = d.workio.cells)
    (hasks : ∀ i, pc.current.countP (SentCmd.asks i) ≤ d.workio.current.countP (SentCmd.asks i))
    (hshares : pc.current.filterMap SentCmd.share = d.workio.current.filterMap SentCmd.share)
    (htransit : ∀ i, pc.transit i = []) (hreplying : ∀ c r, pc ≠ .replying c r) :
    Represents { s with threads := s.threads.setWorkio pc.erase } (d.setWorkio pc) := by
  refine h.same ?_ (h.sound.workio hasks hshares htransit hreplying) (cells_setWorkio_same hcells)
  rw [h.threads]
  rfl

theorem erase_miners {s : WorkioHeap n W} {d : Typed n W} (h : Represents s d) (i : Fin n) :
    s.threads.miners i = (d.miners i).erase := by rw [h.threads]; rfl

theorem erase_workio {s : WorkioHeap n W} {d : Typed n W} (h : Represents s d) :
    s.threads.workio = d.workio.erase := by rw [h.threads]; rfl

section
variable {s s' : WorkioHeap n W} {d : Typed n W}

theorem represents_lock (h : Represents s d) {holder : Option (Fin n)}
    (hstep : workioStep s (.lock holder) = some s') : ∃ d', Represents s' d' := by
  have hlock : s.threads.gWorkLock = d.gWorkLock := by rw [h.threads]; rfl
  unfold workioStep at hstep
  dsimp only at hstep
  obtain ⟨hfree, hstep⟩ := Option.ite_none_left_eq_some.mp hstep
  have hnone : d.gWorkLock = none := by rwa [hlock, Option.not_isSome_iff_eq_none] at hfree
  cases holder with
  | none =>
      cases hstep
      refine ⟨{ d with gWorkLock := some none }, h.same ?_ { h.sound with lock := fun i => ?_ } rfl⟩
      · rw [h.threads]
        rfl
      · refine (h.sound.lock i).trans ?_
        rw [hnone]
        exact ⟨(fun heq => by cases heq), fun heq => by cases heq⟩
  | some i =>
      dsimp only at hstep
      rw [erase_miners h i] at hstep
      cases hpc : d.miners i with
      | scanning =>
          rw [hpc] at hstep
          cases hstep
          have hmove : Sound ({ d with gWorkLock := some (some i) }.setMiner i .locked) := by
            refine h.sound.move _ _ (by rw [hpc]; rfl) (fun _ => by simp_all [MinerPc.asked]) trivial
              ⟨fun _ => rfl, fun _ => rfl⟩ fun j hj => ?_
            rw [hnone]
            exact ⟨(fun heq => by cases heq),
              fun heq => absurd (Option.some.inj (Option.some.inj heq)).symm hj⟩
          refine ⟨_, h.same ?_ hmove (cells_setMiner_same ?_)⟩
          · rw [h.threads, erase_setMiner]
            rfl
          · rw [hpc]
            rfl
      | _ =>
          rw [hpc] at hstep
          cases hstep

theorem represents_unlock (h : Represents s d) {holder : Option (Fin n)}
    (hstep : workioStep s (.unlock holder) = some s') : ∃ d', Represents s' d' := by
  have hlock : s.threads.gWorkLock = d.gWorkLock := by rw [h.threads]; rfl
  cases holder with
  | none =>
      unfold workioStep at hstep
      dsimp only at hstep
      obtain ⟨hother, heq⟩ := Option.ite_none_right_eq_some.mp hstep
      cases heq
      rw [hlock] at hother
      refine ⟨{ d with gWorkLock := none }, h.same ?_ { h.sound with lock := fun i => ?_ } rfl⟩
      · rw [h.threads]
        rfl
      · refine (h.sound.lock i).trans ?_
        rw [hother]
        exact ⟨(fun heq => by cases heq), fun heq => by cases heq⟩
  | some i =>
      unfold workioStep at hstep
      dsimp only at hstep
      rw [erase_miners h i] at hstep
      cases hpc : d.miners i with
      | locked =>
          rw [hpc] at hstep
          cases hstep
          exact ⟨_, h.release hpc .scanning rfl rfl (fun hasked => by cases hasked) trivial rfl rfl⟩
      | _ =>
          rw [hpc] at hstep
          cases hstep

/-- `get_work` returns `false`. -/
theorem Represents.failRequest (h : Represents s d) {i : Fin n}
    {old : MinerPc (SentCmd n W) (Nat × W) W} (hold : d.miners i = old) (hcells : old.cells = 0)
    (hhand : old.inHand = []) (hheld : old.holdsLock = true) :
    Represents { s with threads := s.threads.failRequest i } (d.failRequest i) :=
  h.release hold .exiting hcells.symm hhand.symm (fun _ => rfl) trivial hheld rfl

theorem represents_request (h : Represents s d) {i : Fin n} {wc : Option Nat}
    (hstep : workioStep s (.request i wc) = some s') : ∃ d', Represents s' d' := by
  unfold workioStep at hstep
  dsimp only at hstep
  rw [erase_miners h i] at hstep
  cases hpc : d.miners i with
  | locked =>
      rw [hpc] at hstep
      cases wc with
      | none =>
          cases hstep
          exact ⟨_, h.failRequest hpc rfl rfl rfl⟩
      | some wc =>
          obtain ⟨hfresh, heq⟩ := Option.ite_none_left_eq_some.mp hstep
          cases heq
          rw [Option.not_isSome_iff_eq_none] at hfresh
          have hkeep : Sound (d.setMiner i (.requesting (.getWork wc i))) :=
            h.sound.keep hpc _ rfl (fun hasked => by cases hasked) ⟨wc, rfl⟩ rfl
          refine ⟨_, erase_setMiner_of h i (.requesting (.getWork wc i)), ?_, h.fault, hkeep⟩
          refine (h.owns.alloc hfresh _).of_eq ?_
          rw [cells_setMiner, cells_eq d i, hpc]
          simp only [MinerPc.cells, SentCmd.cells]
          abel
  | _ =>
      rw [hpc] at hstep
      cases hstep

theorem represents_sendRequest (h : Represents s d) {i : Fin n} {ent : Bool}
    (hstep : workioStep s (.sendRequest i ent) = some s') : ∃ d', Represents s' d' := by
  unfold workioStep at hstep
  dsimp only at hstep
  rw [erase_miners h i] at hstep
  cases hpc : d.miners i with
  | requesting c =>
      rw [hpc] at hstep
      simp only [MinerPc.erase] at hstep
      have hpush := erase_pushWork d ent (some c)
      rw [Option.map_some, ← h.threads] at hpush
      rw [hpush] at hstep
      cases hrc : (d.pushWork ent (some c)).1 with
      | true =>
          rw [hrc, pushWork_true hrc] at hstep
          cases hstep
          have hsignal := h.sound.signal
          have hsound := hsignal.enqueue_request (i := i) (c := c) hpc
          refine ⟨_, ?_, ?_, h.fault, hsound⟩
          · rw [erase_setMiner]
            rfl
          · refine h.owns.of_eq ?_
            rw [cells_setMiner, cells_eq d i, hpc]
            simp only [Workio.setWorkio, push, cells_workio_signalled, sentCells_concat, MinerPc.cells,
              Option.elim_some]
            rw [otherCells_of_eq (d := d) rfl rfl i]
            abel
      | false =>
          rw [hrc] at hstep
          obtain ⟨heap', hfree, howns⟩ := workioCmdFree_owned (h.owns.of_eq
            ((cells_eq d i).trans ((add_left_comm _ _ _).trans (by rw [hpc, add_assoc]; rfl))))
          rw [hfree] at hstep
          cases hstep
          obtain ⟨hsound, hminers, hqs, hworkQ, hworkio⟩ := h.sound.refused hrc
          have hthere : (d.pushWork ent (some c)).2.miners i = .requesting c := hminers ▸ hpc
          refine ⟨_, (erase_failRequest _ i).symm, ?_, h.fault,
            hsound.release hthere .exiting rfl (fun _ => rfl) trivial rfl rfl⟩
          refine howns.of_eq ?_
          rw [cells_failRequest, otherCells_of_eq hminers hqs i, hworkQ, hworkio, hqs]
          abel
  | _ =>
      rw [hpc] at hstep
      cases hstep

/-- `tq_pop` of a miner, from a look at its queue on. -/
theorem represents_popReply (h : Represents s d) {i : Fin n}
    {old : MinerPc (SentCmd n W) (Nat × W) W} (hold : d.miners i = old) (hcells : old.cells = 0)
    (hhand : old.inHand = []) (hholds : old.holdsLock = true) (hasked : old.asked = true)
    {t : Workio n Nat Nat W} {dEmpty : Typed n W}
    (hempty : Represents { s with threads := t } dEmpty) :
    ∃ d', Represents { s with threads := s.threads.popReply i t } d' := by
  subst hold
  have hqs : s.threads.qs i = (d.qs i).map Prod.fst := by rw [h.threads]; rfl
  rw [Workio.popReply, hqs]
  cases hq : (d.qs i).q with
  | nil =>
      simp only [ThreadQ.map, hq, List.map_nil]
      exact ⟨dEmpty, hempty⟩
  | cons data q =>
      have htake : { s.threads with
          qs := Function.update s.threads.qs i ((⟨q, (d.qs i).frozen⟩ : ThreadQ _).map Prod.fst) } =
          Typed.erase (setQ d i ⟨q, (d.qs i).frozen⟩) := by
        rw [h.threads, erase_setQ]
      simp only [ThreadQ.map, hq, List.map_cons] at htake ⊢
      cases data with
      | none =>
          have hleft : Represents { s with threads := Typed.erase (setQ d i ⟨q, (d.qs i).frozen⟩) }
              (setQ d i ⟨q, (d.qs i).frozen⟩) := by
            refine h.same rfl (h.sound.requeue i _ ?_) ?_
            · rw [hq, List.reduceOption_cons_of_none]
            · rw [cells_setQ, cells_eq d i, hq, sentCells_none]
          simp only [Option.map_none]
          rw [htake]
          exact ⟨_, hleft.failRequest rfl hcells hhand hholds⟩
      | some r =>
          refine ⟨_, ?_, ?_, h.fault, h.sound.dequeue_reply hq hhand hholds hasked⟩
          · simp only [Option.map_some]
            rw [htake, erase_setMiner]
            rfl
          · refine h.owns.of_eq ?_
            rw [cells_setMiner, otherCells_setQ, cells_eq d i, hq, sentCells_some, hcells]
            simp only [setQ, Function.update_self, MinerPc.cells]
            abel

theorem represents_pop (h : Represents s d) {i : Fin n}
    (hstep : workioStep s (.pop i) = some s') : ∃ d', Represents s' d' := by
  unfold workioStep at hstep
  dsimp only at hstep
  rw [erase_miners h i] at hstep
  cases hpc : d.miners i with
  | popping =>
      rw [hpc] at hstep
      cases hstep
      have hempty : Represents { s with threads := s.threads.setMiner i .waiting }
          (d.setMiner i .waiting) := h.keep hpc .waiting rfl rfl (fun _ => rfl) trivial rfl
      exact represents_popReply h hpc rfl rfl rfl rfl hempty
  | _ =>
      rw [hpc] at hstep
      cases hstep

theorem represents_spurious (h : Represents s d) {i : Fin n}
    (hstep : workioStep s (.spurious i) = some s') : ∃ d', Represents s' d' := by
  unfold workioStep at hstep
  dsimp only at hstep
  rw [erase_miners h i] at hstep
  cases hpc : d.miners i with
  | waiting =>
      rw [hpc] at hstep
      cases hstep
      exact ⟨_, h.keep hpc .woken rfl rfl (fun _ => rfl) trivial rfl⟩
  | _ =>
      rw [hpc] at hstep
      cases hstep

theorem represents_resume (h : Represents s d) {i : Fin n}
    (hstep : workioStep s (.resume i) = some s') : ∃ d', Represents s' d' := by
  unfold workioStep at hstep
  dsimp only at hstep
  rw [erase_miners h i] at hstep
  cases hpc : d.miners i with
  | woken =>
      rw [hpc] at hstep
      cases hstep
      exact represents_popReply h hpc rfl rfl rfl rfl (h.failRequest hpc rfl rfl rfl)
  | _ =>
      rw [hpc] at hstep
      cases hstep

theorem represents_copy (h : Represents s d) {i : Fin n}
    (hstep : workioStep s (.copy i) = some s') : ∃ d', Represents s' d' := by
  unfold workioStep at hstep
  dsimp only at hstep
  rw [erase_miners h i] at hstep
  cases hpc : d.miners i with
  | copying r =>
      rw [hpc] at hstep
      simp only [MinerPc.erase] at hstep
      obtain ⟨hread, hfree, howns⟩ := work_owned (h.owns.of_eq
        ((cells_eq d i).trans ((add_left_comm _ _ _).trans (by rw [hpc, add_assoc]; rfl))))
      rw [hread, Option.bind_some, hfree] at hstep
      cases hstep
      refine ⟨_, ?_, ?_, h.fault, h.sound.copy hpc⟩
      · rw [erase_setMiner, h.threads]
        rfl
      · refine howns.of_eq ?_
        rw [cells_setMiner, otherCells_of_eq (d := d) rfl rfl i]
        simp only [MinerPc.cells]
        abel
  | _ =>
      rw [hpc] at hstep
      cases hstep

theorem represents_share (h : Represents s d) {i : Fin n} {wc work : Option Nat} {workIn : W}
    (hstep : workioStep s (.share i wc work workIn) = some s') : ∃ d', Represents s' d' := by
  unfold workioStep at hstep
  dsimp only at hstep
  rw [erase_miners h i] at hstep
  cases hpc : d.miners i with
  | scanning =>
      rw [hpc] at hstep
      have hleave : Represents { s with threads := s.threads.setMiner i .exiting }
          (d.setMiner i .exiting) := h.keep hpc .exiting rfl rfl (fun _ => rfl) trivial rfl
      cases wc with
      | none =>
          cases hstep
          exact ⟨_, hleave⟩
      | some wc =>
          cases work with
          | none =>
              obtain ⟨hfresh, heq⟩ := Option.ite_none_left_eq_some.mp hstep
              rw [Option.not_isSome_iff_eq_none] at hfresh
              have hback : Function.update (Function.update s.heap wc
                  (some (.cmd ⟨.getWork, none, none⟩))) wc none = s.heap := by
                rw [Function.update_idem, ← hfresh, Function.update_eq_self]
              simp only [workioCmdFree, WorkHeap.free, Function.update_self, hback, Option.map_some]
                at heq
              cases heq
              exact ⟨_, hleave⟩
          | some work =>
              obtain ⟨hfresh, heq⟩ := Option.ite_none_left_eq_some.mp hstep
              cases heq
              simp only [not_or, Option.not_isSome_iff_eq_none] at hfresh
              obtain ⟨hwc, hwork, hne⟩ := hfresh
              have hkeep : Sound (d.setMiner i
                  (.submitting (.submitWork wc work i workIn) workIn)) :=
                h.sound.keep hpc _ rfl (fun hasked => by cases hasked) ⟨wc, work, rfl⟩ rfl
              refine ⟨_, erase_setMiner_of h i
                (.submitting (.submitWork wc work i workIn) workIn), ?_, h.fault, hkeep⟩
              have hnew : Function.update s.heap work (some (.work workIn)) wc = none := by
                rw [Function.update_of_ne hne, hwc]
              refine ((h.owns.alloc hwork _).alloc hnew _).of_eq ?_
              rw [cells_setMiner, cells_eq d i, hpc]
              simp only [MinerPc.cells, SentCmd.cells]
              abel
  | _ =>
      rw [hpc] at hstep
      cases hstep

theorem represents_sendShare (h : Represents s d) {i : Fin n} {ent : Bool}
    (hstep : workioStep s (.sendShare i ent) = some s') : ∃ d', Represents s' d' := by
  unfold workioStep at hstep
  dsimp only at hstep
  rw [erase_miners h i] at hstep
  cases hpc : d.miners i with
  | submitting c workIn =>
      rw [hpc] at hstep
      simp only [MinerPc.erase] at hstep
      have hpush := erase_pushWork d ent (some c)
      rw [Option.map_some, ← h.threads] at hpush
      rw [hpush] at hstep
      cases hrc : (d.pushWork ent (some c)).1 with
      | true =>
          rw [hrc, pushWork_true hrc] at hstep
          cases hstep
          refine ⟨_, ?_, ?_, h.fault, h.sound.signal.enqueue_share (i := i) hpc⟩
          · rw [erase_setMiner]
            rfl
          · refine h.owns.of_eq ?_
            rw [cells_setMiner, cells_eq d i, hpc]
            simp only [Workio.setWorkio, push, cells_workio_signalled, sentCells_concat, MinerPc.cells,
              Option.elim_some]
            rw [otherCells_of_eq (d := d) rfl rfl i]
            abel
      | false =>
          rw [hrc] at hstep
          obtain ⟨heap', hfree, howns⟩ := workioCmdFree_owned (h.owns.of_eq
            ((cells_eq d i).trans ((add_left_comm _ _ _).trans (by rw [hpc, add_assoc]; rfl))))
          rw [hfree] at hstep
          cases hstep
          obtain ⟨hsound, hminers, hqs, hworkQ, hworkio⟩ := h.sound.refused hrc
          have hthere : (d.pushWork ent (some c)).2.miners i = .submitting c workIn :=
            hminers ▸ hpc
          refine ⟨_, (erase_setMiner _ i .exiting).symm, ?_, h.fault,
            hsound.keep hthere .exiting rfl (fun _ => rfl) trivial rfl⟩
          refine howns.of_eq ?_
          rw [cells_setMiner, otherCells_of_eq hminers hqs i, hworkQ, hworkio, hqs]
          simp only [MinerPc.cells]
          abel
  | _ =>
      rw [hpc] at hstep
      cases hstep

theorem represents_freeze (h : Represents s d) {i : Fin n}
    (hstep : workioStep s (.freeze i) = some s') : ∃ d', Represents s' d' := by
  unfold workioStep at hstep
  dsimp only at hstep
  rw [erase_miners h i] at hstep
  cases hpc : d.miners i with
  | exiting =>
      rw [hpc] at hstep
      cases hstep
      have hqueue := h.sound.requeue i (tqFreezethaw (d.qs i) true) rfl
      have hsound : Sound ((setQ d i (tqFreezethaw (d.qs i) true)).setMiner i .exited) :=
        hqueue.keep hpc _ rfl (fun _ => rfl) trivial rfl
      refine ⟨_, h.same ?_ hsound ?_⟩
      · rw [h.threads, erase_setMiner, erase_setQ]
        rfl
      · rw [cells_setMiner, otherCells_setQ, cells_eq d i, hpc]
        simp only [setQ, Function.update_self, MinerPc.cells, tqFreezethaw]
  | _ =>
      rw [hpc] at hstep
      cases hstep

theorem represents_terminate (h : Represents s d) {ent : Bool}
    (hstep : workioStep s (.terminate ent) = some s') : ∃ d', Represents s' d' := by
  unfold workioStep at hstep
  dsimp only at hstep
  cases hstep
  have hpush := erase_pushWork d ent none
  rw [Option.map_none, ← h.threads] at hpush
  rw [hpush]
  refine ⟨_, h.same rfl ?_ ?_⟩
  · cases hrc : (d.pushWork ent none).1 with
    | true =>
        rw [pushWork_true hrc]
        exact h.sound.signal.enqueue_null
    | false => exact (h.sound.refused hrc).1
  · cases hrc : (d.pushWork ent none).1 with
    | true =>
        rw [pushWork_true hrc]
        simp only [cells, Workio.setWorkio, push, cells_workio_signalled, sentCells_concat,
          Option.elim_none, add_zero]
        rfl
    | false =>
        obtain ⟨-, hminers, hqs, hworkQ, hworkio⟩ := h.sound.refused hrc
        rw [cells, cells, hworkQ, hworkio]
        refine congrArg _ (Finset.sum_congr rfl fun i _ => ?_)
        rw [minerCells, minerCells, hminers, hqs]

/-! ### The work I/O thread -/

/-- What `WorkioPc.emptyHanded` means for the records. -/
structure WorkioPc.Idle (pc : WorkioPc (SentCmd n W) (Nat × W)) : Prop where
  cells : pc.cells = 0
  current : pc.current = []
  transit : ∀ i, pc.transit i = []
  replying : ∀ c r, pc ≠ .replying c r

theorem idle_of_emptyHanded {pc : WorkioPc (SentCmd n W) (Nat × W)}
    (hpc : pc.emptyHanded = true) : pc.Idle := by
  cases pc with
  | processing c => cases hpc
  | replying c r => cases hpc
  | freeing c ok => cases hpc
  | _ => exact ⟨rfl, rfl, fun _ => rfl, fun _ _ heq => by cases heq⟩

theorem Represents.idle (h : Represents s d) {old : WorkioPc (SentCmd n W) (Nat × W)}
    (hold : d.workio = old) (hempty : old.emptyHanded = true)
    (pc : WorkioPc (SentCmd n W) (Nat × W)) (hpc : pc.emptyHanded = true) :
    Represents { s with threads := s.threads.setWorkio pc.erase } (d.setWorkio pc) := by
  subst hold
  have hbefore := idle_of_emptyHanded hempty
  have hafter := idle_of_emptyHanded hpc
  refine h.workio pc (hafter.cells.trans hbefore.cells.symm) (fun i => ?_) ?_ hafter.transit
    hafter.replying
  · rw [hafter.current, hbefore.current]
  · rw [hafter.current, hbefore.current]

theorem represents_workioInit (h : Represents s d) {curl : Bool}
    (hstep : workioStep s (.workioInit curl) = some s') : ∃ d', Represents s' d' := by
  unfold workioStep at hstep
  dsimp only at hstep
  rw [erase_workio h] at hstep
  cases hpc : d.workio with
  | starting =>
      rw [hpc] at hstep
      cases hstep
      cases curl with
      | true => exact ⟨_, h.idle hpc rfl .popping rfl⟩
      | false => exact ⟨_, h.idle hpc rfl .ended rfl⟩
  | _ =>
      rw [hpc] at hstep
      cases hstep

theorem represents_popWork (h : Represents s d) {old : WorkioPc (SentCmd n W) (Nat × W)}
    (hold : d.workio = old) (hempty : old.emptyHanded = true)
    (pc : WorkioPc (SentCmd n W) (Nat × W)) (hpc : pc.emptyHanded = true) :
    ∃ d', Represents { s with threads := s.threads.popWork pc.erase } d' := by
  have hworkQ : s.threads.workQ = d.workQ.map SentCmd.ptr := by rw [h.threads]; rfl
  rw [Workio.popWork, hworkQ]
  cases hq : d.workQ.q with
  | nil =>
      simp only [ThreadQ.map, hq, List.map_nil]
      exact ⟨_, h.idle hold hempty pc hpc⟩
  | cons data q =>
      simp only [ThreadQ.map, hq, List.map_cons]
      cases data with
      | none =>
          have hnull := h.sound.dequeue_null hq
          have hleft : Represents { s with threads := { s.threads with
              workQ := (⟨q, d.workQ.frozen⟩ : ThreadQ _).map SentCmd.ptr } }
              { d with workQ := ⟨q, d.workQ.frozen⟩ } := by
            refine h.same ?_ hnull ?_
            · rw [h.threads]
              rfl
            · rw [cells, cells, hq, sentCells_none]
              rfl
          exact ⟨_, hleft.idle hold hempty .ending rfl⟩
      | some c =>
          subst hold
          have hidle := idle_of_emptyHanded hempty
          refine ⟨_, ?_, ?_, h.fault, h.sound.dequeue_cmd hq hidle.current hidle.transit⟩
          · simp only [Option.map_some]
            rw [h.threads]
            rfl
          · refine h.owns.of_eq ?_
            rw [cells, cells, hq, sentCells_some, hidle.cells]
            simp only [Workio.setWorkio, WorkioPc.cells, zero_add]
            rfl

theorem represents_workioPop (h : Represents s d)
    (hstep : workioStep s .workioPop = some s') : ∃ d', Represents s' d' := by
  unfold workioStep at hstep
  dsimp only at hstep
  rw [erase_workio h] at hstep
  cases hpc : d.workio with
  | popping =>
      rw [hpc] at hstep
      cases hstep
      exact represents_popWork h hpc rfl .waiting rfl
  | _ =>
      rw [hpc] at hstep
      cases hstep

theorem represents_workioSpurious (h : Represents s d)
    (hstep : workioStep s .workioSpurious = some s') : ∃ d', Represents s' d' := by
  unfold workioStep at hstep
  dsimp only at hstep
  rw [erase_workio h] at hstep
  cases hpc : d.workio with
  | waiting =>
      rw [hpc] at hstep
      cases hstep
      exact ⟨_, h.idle hpc rfl .woken rfl⟩
  | _ =>
      rw [hpc] at hstep
      cases hstep

theorem represents_workioResume (h : Represents s d)
    (hstep : workioStep s .workioResume = some s') : ∃ d', Represents s' d' := by
  unfold workioStep at hstep
  dsimp only at hstep
  rw [erase_workio h] at hstep
  cases hpc : d.workio with
  | woken =>
      rw [hpc] at hstep
      cases hstep
      exact represents_popWork h hpc rfl .ending rfl
  | _ =>
      rw [hpc] at hstep
      cases hstep

/-- What the work I/O thread has in hand comes first. -/
theorem owns_workio (h : Represents s d) :
    Owns s.heap (d.workio.cells + (sentCells SentCmd.cells d.workQ.q + ∑ i, minerCells d i)) :=
  h.owns.of_eq (add_assoc _ _ _)

/-- It has done with a command and stands in front of `workio_cmd_free`. -/
theorem Represents.done (h : Represents s d) {c : SentCmd n W} (hpc : d.workio = .processing c)
    (hrequest : c.share = none) (ok : Bool) :
    Represents { s with threads := s.threads.setWorkio (.freeing c.ptr ok) }
      (d.setWorkio (.freeing c ok)) := by
  refine h.workio (.freeing c ok) ?_ (fun i => ?_) ?_ (fun _ => rfl) fun _ _ heq => by cases heq
  · rw [hpc]; rfl
  · exact Nat.zero_le _
  · rw [hpc]
    simp [WorkioPc.current, hrequest]

theorem represents_getUpstream (h : Represents s d) {retWork : Option Nat} {reply : Option W}
    (hstep : workioStep s (.getUpstream retWork reply) = some s') : ∃ d', Represents s' d' := by
  unfold workioStep at hstep
  dsimp only at hstep
  rw [erase_workio h] at hstep
  cases hpc : d.workio with
  | processing c =>
      rw [hpc] at hstep
      simp only [WorkioPc.erase] at hstep
      have howns := owns_workio h
      rw [hpc] at howns
      rw [readCmd_owned howns] at hstep
      cases c with
      | submitWork wc work thr w => cases hstep
      | getWork wc i =>
          cases retWork with
          | none =>
              cases hstep
              exact ⟨_, h.done hpc rfl false⟩
          | some a =>
              cases reply with
              | none =>
                  cases hstep
                  exact ⟨_, h.done hpc rfl false⟩
              | some w =>
                  obtain ⟨hfresh, heq⟩ := Option.ite_none_left_eq_some.mp hstep
                  cases heq
                  rw [Option.not_isSome_iff_eq_none] at hfresh
                  refine ⟨_, ?_, ?_, h.fault, h.sound.fetch (r := (a, w)) hpc⟩
                  · rw [h.threads]
                    rfl
                  · refine (h.owns.alloc hfresh _).of_eq ?_
                    rw [cells, cells, hpc]
                    simp only [Workio.setWorkio, WorkioPc.cells, workCells]
                    rw [Finset.sum_congr rfl fun j _ => show minerCells _ j = minerCells d j from rfl]
                    abel
  | _ =>
      rw [hpc] at hstep
      cases hstep

/-- An answer that was not taken is freed by the work I/O thread. -/
theorem Typed.Sound.drop {d : Typed n W} (h : Sound d) {i : Fin n} {wc : Nat} {r : Nat × W}
    (hpc : d.workio = .replying (.getWork wc i) r) (ok : Bool) :
    Sound (d.setWorkio (.freeing (.getWork wc i) ok)) := by
  refine h.workio (fun j => ?_) ?_ (fun _ => rfl) fun _ _ heq => by cases heq
  · exact Nat.zero_le _
  · rw [hpc]
    rfl

theorem represents_reply (h : Represents s d) {ent : Bool}
    (hstep : workioStep s (.reply ent) = some s') : ∃ d', Represents s' d' := by
  unfold workioStep at hstep
  dsimp only at hstep
  rw [erase_workio h] at hstep
  cases hpc : d.workio with
  | replying c r =>
      obtain ⟨wc, i, rfl⟩ := h.sound.replying c r hpc
      rw [hpc] at hstep
      simp only [WorkioPc.erase] at hstep
      have howns := owns_workio h
      rw [hpc, WorkioPc.cells, add_assoc] at howns
      rw [readCmd_owned howns] at hstep
      simp only [SentCmd.record] at hstep
      have hpush := erase_pushReply d i ent r
      rw [← h.threads] at hpush
      rw [hpush] at hstep
      cases hrc : (d.pushReply i ent r).1 with
      | true =>
          rw [hrc, pushReply_true hrc] at hstep
          cases hstep
          have hsignal := h.sound.signalMiner i
          refine ⟨_, ?_, ?_, h.fault, hsignal.reply (i := i) (r := r) hpc true⟩
          · rfl
          · refine h.owns.of_eq ?_
            rw [cells_eq d i, hpc, cells_eq _ i]
            have hother : otherCells ((setQ (d.setMiner i (d.miners i).signalled) i
                (push (d.qs i) (some r))).setWorkio (.freeing (.getWork wc i) true)) i =
                otherCells d i :=
              otherCells_congr (fun _ hj => Function.update_of_ne hj _ _)
                fun _ hj => Function.update_of_ne hj _ _
            have hqs : (d.setMiner i (d.miners i).signalled).qs = d.qs := rfl
            rw [hqs, hother]
            simp only [Workio.setWorkio, setQ, Workio.setMiner, Function.update_self, push,
              cells_signalled, sentCells_concat, WorkioPc.cells, Option.elim_some]
            abel
      | false =>
          rw [hrc] at hstep
          obtain ⟨-, hfree, hleft⟩ := work_owned (howns.of_eq (add_left_comm _ _ _))
          simp only [hfree, Option.map_some, WorkioHeap.attempt, Option.some_inj] at hstep
          subst hstep
          have hcells : ∀ t : Typed n W, t.workQ = d.workQ →
              (∀ j, minerCells t j = minerCells d j) → Owns (Function.update s.heap r.1 none)
                (cells (t.setWorkio (.freeing (.getWork wc i) true))) := by
            intro t hworkQ hminers
            refine hleft.of_eq ?_
            have hsum : ∑ j, minerCells (t.setWorkio (.freeing (.getWork wc i) true)) j =
                ∑ j, minerCells d j := Finset.sum_congr rfl fun j _ => hminers j
            rw [cells, hsum]
            simp only [Workio.setWorkio, WorkioPc.cells, hworkQ]
            abel
          rcases pushReply_false hrc with heq | heq
          · rw [heq]
            exact ⟨_, rfl, hcells d rfl fun _ => rfl, h.fault, h.sound.drop hpc true⟩
          · rw [heq]
            refine ⟨_, rfl, hcells (d.setMiner i (d.miners i).signalled) rfl fun j => ?_, h.fault,
              (h.sound.signalMiner i).drop hpc true⟩
            rw [minerCells, minerCells]
            simp only [Workio.setMiner]
            by_cases hj : j = i
            · subst hj
              rw [Function.update_self, cells_signalled]
            · rw [Function.update_of_ne hj]
  | _ =>
      rw [hpc] at hstep
      cases hstep

theorem represents_submitUpstream (h : Represents s d) {ok : Bool}
    (hstep : workioStep s (.submitUpstream ok) = some s') : ∃ d', Represents s' d' := by
  unfold workioStep at hstep
  dsimp only at hstep
  rw [erase_workio h] at hstep
  cases hpc : d.workio with
  | processing c =>
      rw [hpc] at hstep
      simp only [WorkioPc.erase] at hstep
      have howns := owns_workio h
      rw [hpc, WorkioPc.cells] at howns
      rw [readCmd_owned howns] at hstep
      cases c with
      | getWork wc i => cases hstep
      | submitWork wc work i w =>
          simp only [SentCmd.record, Option.bind_some, readWork_owned howns] at hstep
          cases hstep
          refine ⟨_, ?_, ?_, h.fault, h.sound.process hpc ok⟩
          · rw [h.threads]
            rfl
          · refine h.owns.of_eq ?_
            rw [cells, cells, hpc]
            rfl
  | _ =>
      rw [hpc] at hstep
      cases hstep

theorem represents_workioFree (h : Represents s d)
    (hstep : workioStep s .workioFree = some s') : ∃ d', Represents s' d' := by
  unfold workioStep at hstep
  dsimp only at hstep
  rw [erase_workio h] at hstep
  cases hpc : d.workio with
  | freeing c ok =>
      rw [hpc] at hstep
      simp only [WorkioPc.erase] at hstep
      have howns := owns_workio h
      rw [hpc, WorkioPc.cells] at howns
      obtain ⟨heap', hfree, hleft⟩ := workioCmdFree_owned howns
      rw [hfree] at hstep
      cases hstep
      have hnext : ∃ pc : WorkioPc (SentCmd n W) (Nat × W), pc.Idle ∧
          pc.erase = if ok then .popping else .ending := by
        cases ok with
        | false => exact ⟨.ending, idle_of_emptyHanded rfl, rfl⟩
        | true => exact ⟨.popping, idle_of_emptyHanded rfl, rfl⟩
      obtain ⟨pc, hidle, herase⟩ := hnext
      refine ⟨d.setWorkio pc, ?_, ?_, h.fault,
        h.sound.workio (fun i => ?_) ?_ hidle.transit hidle.replying⟩
      · rw [← herase, h.threads]
        rfl
      · refine hleft.of_eq ?_
        rw [cells, Workio.setWorkio, hidle.cells, zero_add]
        rfl
      · rw [hidle.current]
        exact Nat.zero_le _
      · rw [hidle.current, hpc]
        rfl
  | _ =>
      rw [hpc] at hstep
      cases hstep

theorem represents_workioFreeze (h : Represents s d)
    (hstep : workioStep s .workioFreeze = some s') : ∃ d', Represents s' d' := by
  unfold workioStep at hstep
  dsimp only at hstep
  rw [erase_workio h] at hstep
  cases hpc : d.workio with
  | ending =>
      rw [hpc] at hstep
      cases hstep
      have hsound : Sound { d with workQ := tqFreezethaw d.workQ true } := { h.sound with }
      have hfrozen : Represents { s with threads := { s.threads with
          workQ := tqFreezethaw s.threads.workQ true } }
          { d with workQ := tqFreezethaw d.workQ true } := by
        refine h.same ?_ hsound rfl
        rw [h.threads]
        rfl
      exact ⟨_, hfrozen.idle hpc rfl .ended rfl⟩
  | _ =>
      rw [hpc] at hstep
      cases hstep

/-! ### Runs -/

theorem represents_step (h : Represents s d) {e : WorkioEvent n W}
    (hstep : workioStep s e = some s') : ∃ d', Represents s' d' := by
  cases e with
  | lock holder => exact represents_lock h hstep
  | unlock holder => exact represents_unlock h hstep
  | request i wc => exact represents_request h hstep
  | sendRequest i ent => exact represents_sendRequest h hstep
  | pop i => exact represents_pop h hstep
  | spurious i => exact represents_spurious h hstep
  | resume i => exact represents_resume h hstep
  | copy i => exact represents_copy h hstep
  | share i wc work workIn => exact represents_share h hstep
  | sendShare i ent => exact represents_sendShare h hstep
  | freeze i => exact represents_freeze h hstep
  | terminate ent => exact represents_terminate h hstep
  | workioInit curl => exact represents_workioInit h hstep
  | workioPop => exact represents_workioPop h hstep
  | workioSpurious => exact represents_workioSpurious h hstep
  | workioResume => exact represents_workioResume h hstep
  | getUpstream retWork reply => exact represents_getUpstream h hstep
  | reply ent => exact represents_reply h hstep
  | submitUpstream ok => exact represents_submitUpstream h hstep
  | workioFree => exact represents_workioFree h hstep
  | workioFreeze => exact represents_workioFreeze h hstep

theorem represents_of_reachable (h : (workioThreads n W).Reachable s) : ∃ d, Represents s d := by
  refine h.invariant (I := fun s => ∃ d, Represents s d) (fun s hs => ?_) ?_
  · rw [show s = .start n W from hs]
    exact ⟨_, represents_start⟩
  · intro s e s' hs hnext
    obtain ⟨d, hd⟩ := hs
    exact represents_step hd hnext

end

/-! ## What is true of every run -/

theorem erase_asked (pc : MinerPc (SentCmd n W) (Nat × W) W) : pc.erase.asked = pc.asked := by
  cases pc <;> rfl

theorem erase_holdsLock (pc : MinerPc (SentCmd n W) (Nat × W) W) :
    pc.erase.holdsLock = pc.holdsLock := by
  cases pc <;> rfl

theorem reduceOption_of_none {α β : Type} {f : α → β} {q : List (Option α)}
    (h : ∀ data ∈ q.map (Option.map f), data = none) : q.reduceOption = [] := by
  refine List.eq_nil_iff_forall_not_mem.mpr fun a ha => ?_
  have hmem := List.mem_map_of_mem (f := Option.map f) (List.reduceOption_mem_iff.mp ha)
  cases h _ hmem

/-- Nothing but NULL is in a queue, and nobody has a pointer in hand. -/
structure Workio.Quiet {C R : Type} (t : Workio n C R W) : Prop where
  workQ : ∀ data ∈ t.workQ.q, data = none
  qs : ∀ i, ∀ data ∈ (t.qs i).q, data = none
  miners : ∀ i, (t.miners i).emptyHanded = true
  workio : t.workio.emptyHanded = true

theorem cells_of_emptyHanded {pc : MinerPc (SentCmd n W) (Nat × W) W}
    (hpc : pc.emptyHanded = true) : pc.cells = 0 := by
  cases pc with
  | requesting c => cases hpc
  | copying r => cases hpc
  | submitting c work => cases hpc
  | _ => rfl

theorem MinerPc.erase_emptyHanded (pc : MinerPc (SentCmd n W) (Nat × W) W) :
    pc.erase.emptyHanded = pc.emptyHanded := by
  cases pc <;> rfl

theorem WorkioPc.erase_emptyHanded (pc : WorkioPc (SentCmd n W) (Nat × W)) :
    pc.erase.emptyHanded = pc.emptyHanded := by
  cases pc <;> rfl

theorem cells_of_quiet {d : Typed n W} (h : Workio.Quiet (Typed.erase d)) : d.cells = 0 := by
  have hworkio : d.workio.cells = 0 :=
    (idle_of_emptyHanded (d.workio.erase_emptyHanded.symm.trans h.workio)).cells
  have hminers : ∀ i, minerCells d i = 0 := by
    intro i
    have hqueue : (d.qs i).q.reduceOption = [] := reduceOption_of_none (h.qs i)
    rw [minerCells, sentCells, hqueue,
      cells_of_emptyHanded ((d.miners i).erase_emptyHanded.symm.trans (h.miners i))]
    rfl
  have hqueue : d.workQ.q.reduceOption = [] := reduceOption_of_none h.workQ
  rw [Typed.cells, hworkio, sentCells, hqueue, Finset.sum_congr rfl fun i _ => hminers i,
    Finset.sum_const_zero]
  rfl

/-- Nothing is read or freed that is not allocated. Every record is held once, by a queue or
by a thread, and nothing else is allocated. -/
theorem workio_owns {s : WorkioHeap n W} (h : (workioThreads n W).Reachable s) :
    s.fault = false ∧
    (∃ d : Typed n W, s.threads = Typed.erase d ∧ Owns s.heap d.cells) ∧
    (s.threads.Quiet → ∀ a, s.heap a = none) := by
  obtain ⟨d, hd⟩ := represents_of_reachable h
  refine ⟨hd.fault, ⟨d, hd.threads, hd.owns⟩, fun hquiet => ?_⟩
  rw [hd.threads] at hquiet
  exact (hd.owns.of_eq (cells_of_quiet hquiet)).none_of_zero

/-- A miner receives what was fetched for it, in order and once, has at most one request
open, and one that is not waiting and has not left has received everything. Only one miner
at a time is in between. -/
theorem workio_answers {s : WorkioHeap n W} (h : (workioThreads n W).Reachable s) :
    (∀ i j, (s.threads.miners i).holdsLock = true → (s.threads.miners j).holdsLock = true →
      i = j) ∧
    ∀ i, s.threads.received i <+: s.threads.fetched i ∧
      (s.threads.fetched i).length ≤ s.threads.requests i ∧
      s.threads.requests i ≤ (s.threads.received i).length + 1 ∧
      ((s.threads.miners i).asked = false → s.threads.received i = s.threads.fetched i ∧
        s.threads.requests i = (s.threads.received i).length ∧
        ∀ data ∈ (s.threads.qs i).q, data = none) := by
  obtain ⟨d, hd⟩ := represents_of_reachable h
  rw [hd.threads]
  refine ⟨fun i j hi hj => ?_, fun i => ?_⟩
  · have hi := (hd.sound.lock i).mp ((erase_holdsLock _).symm.trans hi)
    have hj := (hd.sound.lock j).mp ((erase_holdsLock _).symm.trans hj)
    exact Option.some.inj (Option.some.inj (hi.symm.trans hj))
  · have hdelivered := hd.sound.delivered i
    have hanswered := hd.sound.answered i
    have hone := hd.sound.open_one i
    have hasked := Bool.toNat_le (d.miners i).asked
    refine ⟨(List.prefix_append _ _).trans hdelivered, Nat.le_trans (Nat.le_add_left _ _) hanswered,
      Nat.le_trans hone (Nat.add_le_add_left hasked _), fun hnot => ?_⟩
    rw [Typed.erase, erase_asked] at hnot
    rw [hnot, Bool.toNat_false, Nat.add_zero] at hone
    have hlength := hdelivered.length_le
    rw [List.length_append] at hlength
    have hbox : box d i = [] := List.eq_nil_of_length_eq_zero (by omega)
    rw [hbox, List.append_nil] at hdelivered
    have hall := eq_of_prefix_length hdelivered (by omega)
    refine ⟨hall, ?_, fun data hdata => ?_⟩
    · refine Nat.le_antisymm hone ?_
      have hlength := congrArg List.length hall
      exact Nat.le_trans (Nat.le_of_eq hlength) (Nat.le_trans (Nat.le_add_left _ _) hanswered)
    · obtain ⟨r, hr, rfl⟩ := List.mem_map.mp hdata
      cases r with
      | none => rfl
      | some r =>
          have hmem : r.2 ∈ box d i := by
            refine List.mem_append_right _ (List.mem_append_left _ ?_)
            exact List.mem_map_of_mem (List.reduceOption_mem_iff.mpr hr)
          rw [hbox] at hmem
          cases hmem

/-- The shares that `workio_submit_work` was called with are the first of those that were
taken, and all of them when nothing is on its way. -/
theorem workio_shares {s : WorkioHeap n W} (h : (workioThreads n W).Reachable s) :
    s.threads.processed.map Prod.fst <+: s.threads.submitted ∧
    ((∀ data ∈ s.threads.workQ.q, data = none) → (∀ wc, s.threads.workio ≠ .processing wc) →
      s.threads.submitted = s.threads.processed.map Prod.fst) := by
  obtain ⟨d, hd⟩ := represents_of_reachable h
  rw [hd.threads]
  have hshares : d.submitted = _ := hd.sound.shares
  refine ⟨⟨_, hshares.symm⟩, fun hqueue hidle => hshares.trans ?_⟩
  have hcurrent : d.workio.current = [] := by
    cases hpc : d.workio with
    | processing c => exact absurd (by rw [Typed.erase, hpc]; rfl) (hidle c.ptr)
    | _ => rfl
  rw [pending, hcurrent, reduceOption_of_none hqueue, List.append_nil, List.filterMap_nil,
    List.append_nil]
  rfl

/-- A miner gets its work and has a share handed on. -/
theorem exists_mined : ∃ s, (workioThreads 2 Nat).Reachable s ∧ s.threads.received 1 = [5] ∧
    s.threads.submitted = [(1, 6)] := by
  have hrun : ∃ s ∈ ([.lock (some 1), .request 1 (some 10), .sendRequest 1 true, .pop 1,
      .workioInit true, .workioPop, .getUpstream (some 11) (some 5), .reply true, .resume 1, .copy 1,
      .workioFree, .share 1 (some 10) (some 12) 6, .sendShare 1 true, .workioPop,
      .submitUpstream true, .workioFree] : List (WorkioEvent 2 Nat)).foldlM workioStep
        (WorkioHeap.start 2 Nat),
      s.threads.received 1 = [5] ∧ s.threads.submitted = [(1, 6)] := by decide +kernel
  obtain ⟨s, hrun, hs⟩ := hrun
  exact ⟨s, Lts.Reachable.replay (fun _ _ _ h => h) (.init rfl) hrun, hs⟩

theorem workio_owns_mined : ∃ s : WorkioHeap 2 Nat, s.threads.received 1 = [5] ∧ s.fault = false ∧
    ∃ d : Typed 2 Nat, s.threads = Typed.erase d ∧ Owns s.heap d.cells := by
  obtain ⟨s, hreach, hreceived, -⟩ := exists_mined
  obtain ⟨hfault, howns, -⟩ := workio_owns hreach
  exact ⟨s, hreceived, hfault, howns⟩

theorem workio_answers_mined : ∃ s : WorkioHeap 2 Nat, s.threads.received 1 = [5] ∧
    s.threads.received 1 <+: s.threads.fetched 1 := by
  obtain ⟨s, hreach, hreceived, -⟩ := exists_mined
  exact ⟨s, hreceived, ((workio_answers hreach).2 1).1⟩

theorem workio_shares_mined : ∃ s : WorkioHeap 2 Nat, s.threads.submitted = [(1, 6)] ∧
    s.threads.processed.map Prod.fst <+: s.threads.submitted := by
  obtain ⟨s, hreach, -, hsubmitted⟩ := exists_mined
  exact ⟨s, hsubmitted, (workio_shares hreach).1⟩

end AlphaMiner
