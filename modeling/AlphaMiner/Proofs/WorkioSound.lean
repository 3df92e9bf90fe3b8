import AlphaMiner.Proofs.WorkioHeap

/-!
# Requests, answers and shares, as messages

With typed pointers the threads send each other messages, and what is true of these is an
invariant (`Sound`). For the answers it counts: a miner has at most one request open,
since it waits for the answer, and a miner that has stopped waiting without one never
asks again. So there is nothing in its queue when it asks, and whatever was fetched for it
before it has received.

The shares that were taken are those that were handed on and those that are still on
their way, in this order.
-/

namespace AlphaMiner

open Lib

variable {n : Nat} {W : Type}

/-! ## What is on its way -/

def SentCmd.asks (i : Fin n) : SentCmd n W → Bool
  | .getWork _ thr => thr = i
  | .submitWork _ _ _ _ => false

def SentCmd.share : SentCmd n W → Option (Fin n × W)
  | .getWork _ _ => none
  | .submitWork _ _ thr w => some (thr, w)

def MinerPc.holdsLock {C R : Type} : MinerPc C R W → Bool
  | .locked | .requesting _ | .popping | .waiting | .woken | .copying _ => true
  | .scanning | .submitting _ _ | .exiting | .exited => false

/-- It waits for an answer, or never asks again. -/
def MinerPc.asked {C R : Type} : MinerPc C R W → Bool
  | .popping | .waiting | .woken | .copying _ | .exiting | .exited => true
  | .scanning | .locked | .requesting _ | .submitting _ _ => false

def MinerPc.inHand : MinerPc (SentCmd n W) (Nat × W) W → List W
  | .copying r => [r.2]
  | _ => []

/-- What a miner sends is its own. -/
def MinerPc.Fits (i : Fin n) : MinerPc (SentCmd n W) (Nat × W) W → Prop
  | .requesting c => ∃ wc, c = .getWork wc i
  | .submitting c work => ∃ wc a, c = .submitWork wc a i work
  | _ => True

def WorkioPc.current : WorkioPc (SentCmd n W) (Nat × W) → List (SentCmd n W)
  | .processing c => [c]
  | _ => []

/-- What is about to be sent to a miner. -/
def WorkioPc.transit (i : Fin n) : WorkioPc (SentCmd n W) (Nat × W) → List W
  | .replying c r => if c.asks i then [r.2] else []
  | _ => []

theorem WorkioPc.transit_self (i : Fin n) (wc : Nat) (r : Nat × W) :
    WorkioPc.transit i (.replying (.getWork wc i) r) = [r.2] := by
  simp [WorkioPc.transit, SentCmd.asks]

theorem WorkioPc.transit_other {i j : Fin n} (hj : j ≠ i) (wc : Nat) (r : Nat × W) :
    WorkioPc.transit j (.replying (.getWork wc i) r) = [] := by
  simp [WorkioPc.transit, SentCmd.asks, Ne.symm hj]

namespace Typed

/-- What is on its way to a miner. -/
def box (d : Typed n W) (i : Fin n) : List W :=
  (d.miners i).inHand ++ ((d.qs i).q.reduceOption.map Prod.snd ++ d.workio.transit i)

/-- The commands that were sent and are not done with. -/
def pending (d : Typed n W) : List (SentCmd n W) := d.workio.current ++ d.workQ.q.reduceOption

structure Sound (d : Typed n W) : Prop where
  delivered : ∀ i, d.received i ++ box d i <+: d.fetched i
  answered : ∀ i, (pending d).countP (SentCmd.asks i) + (d.fetched i).length ≤ d.requests i
  open_one : ∀ i, d.requests i ≤ (d.received i).length + (d.miners i).asked.toNat
  lock : ∀ i, (d.miners i).holdsLock = true ↔ d.gWorkLock = some (some i)
  shares : d.submitted = d.processed.map Prod.fst ++ (pending d).filterMap SentCmd.share
  fits : ∀ i, (d.miners i).Fits i
  replying : ∀ c r, d.workio = .replying c r → ∃ wc i, c = .getWork wc i

theorem sound_start : Sound (.start n (SentCmd n W) (Nat × W) W) where
  delivered _ := List.prefix_refl _
  answered _ := Nat.le_refl _
  open_one _ := Nat.zero_le _
  lock _ := ⟨(fun h => by cases h), (fun h => by cases h)⟩
  shares := rfl
  fits _ := trivial
  replying _ _ h := by cases h

/-! ## Steps that send nothing -/

theorem fits_update {miners : Fin n → MinerPc (SentCmd n W) (Nat × W) W}
    (h : ∀ j, (miners j).Fits j) {i : Fin n} {pc : MinerPc (SentCmd n W) (Nat × W) W}
    (hpc : pc.Fits i) (j : Fin n) : (Function.update miners i pc j).Fits j := by
  by_cases hj : j = i
  · subst hj
    rwa [Function.update_self]
  · rw [Function.update_of_ne hj]
    exact h j

theorem Sound.lock_update {d : Typed n W} (h : Sound d) {i : Fin n}
    {pc : MinerPc (SentCmd n W) (Nat × W) W} (hholds : pc.holdsLock = (d.miners i).holdsLock)
    (j : Fin n) :
    (Function.update d.miners i pc j).holdsLock = true ↔ d.gWorkLock = some (some j) := by
  by_cases hj : j = i
  · subst hj
    rw [Function.update_self, hholds]
    exact h.lock j
  · rw [Function.update_of_ne hj]
    exact h.lock j

/-- Whoever else has the lock had it before. -/
theorem Sound.lock_others {d : Typed n W} (h : Sound d) {i j : Fin n}
    (hheld : (d.miners i).holdsLock = true) (hj : j ≠ i) :
    d.gWorkLock = some (some j) ↔ (none : Option (Option (Fin n))) = some (some j) := by
  rw [(h.lock i).mp hheld]
  exact ⟨(fun heq => absurd (Option.some.inj (Option.some.inj heq)).symm hj),
    fun heq => by cases heq⟩

/-- A miner goes on, and may take the lock or give it back. -/
theorem Sound.move {d : Typed n W} (h : Sound d) {i : Fin n}
    (pc : MinerPc (SentCmd n W) (Nat × W) W) (lock : Option (Option (Fin n)))
    (hhand : pc.inHand = (d.miners i).inHand)
    (hasked : (d.miners i).asked = true → pc.asked = true) (hfits : pc.Fits i)
    (hlock : pc.holdsLock = true ↔ lock = some (some i))
    (hothers : ∀ j, j ≠ i → (d.gWorkLock = some (some j) ↔ lock = some (some j))) :
    Sound ({ d with gWorkLock := lock }.setMiner i pc) where
  delivered j := by
    have hbox : box ({ d with gWorkLock := lock }.setMiner i pc) j = box d j := by
      simp only [box, Workio.setMiner]
      by_cases hj : j = i
      · subst hj
        rw [Function.update_self, hhand]
      · rw [Function.update_of_ne hj]
    rw [hbox]
    exact h.delivered j
  answered := h.answered
  open_one j := by
    have hone := h.open_one j
    by_cases hj : j = i
    · subst hj
      refine Nat.le_trans hone (Nat.add_le_add_left ?_ _)
      simp only [Workio.setMiner, Function.update_self]
      cases hold : (d.miners j).asked with
      | false => exact Nat.zero_le _
      | true => rw [hasked hold]
    · simpa only [Workio.setMiner, Function.update_of_ne hj] using hone
  lock j := by
    by_cases hj : j = i
    · subst hj
      simpa only [Workio.setMiner, Function.update_self] using hlock
    · simp only [Workio.setMiner, Function.update_of_ne hj]
      exact (h.lock j).trans (hothers j hj)
  shares := h.shares
  fits := fits_update h.fits hfits
  replying := h.replying

theorem Sound.keep {d : Typed n W} (h : Sound d) {i : Fin n}
    {old : MinerPc (SentCmd n W) (Nat × W) W} (hold : d.miners i = old)
    (pc : MinerPc (SentCmd n W) (Nat × W) W) (hhand : pc.inHand = old.inHand)
    (hasked : old.asked = true → pc.asked = true) (hfits : pc.Fits i)
    (hholds : pc.holdsLock = old.holdsLock) : Sound (d.setMiner i pc) := by
  subst hold
  exact h.move pc d.gWorkLock hhand hasked hfits (hholds ▸ h.lock i) fun _ _ => Iff.rfl

theorem Sound.release {d : Typed n W} (h : Sound d) {i : Fin n}
    {old : MinerPc (SentCmd n W) (Nat × W) W} (hold : d.miners i = old)
    (pc : MinerPc (SentCmd n W) (Nat × W) W) (hhand : pc.inHand = old.inHand)
    (hasked : old.asked = true → pc.asked = true) (hfits : pc.Fits i)
    (hheld : old.holdsLock = true) (hholds : pc.holdsLock = false) :
    Sound ({ d with gWorkLock := none }.setMiner i pc) := by
  subst hold
  refine h.move pc none hhand hasked hfits ?_ fun j hj => h.lock_others hheld hj
  rw [hholds]
  exact ⟨(fun heq => by cases heq), fun heq => by cases heq⟩

/-- The work I/O thread goes on, and may have done with a request. -/
theorem Sound.workio {d : Typed n W} (h : Sound d) {pc : WorkioPc (SentCmd n W) (Nat × W)}
    (hasks : ∀ i, pc.current.countP (SentCmd.asks i) ≤ d.workio.current.countP (SentCmd.asks i))
    (hshares : pc.current.filterMap SentCmd.share = d.workio.current.filterMap SentCmd.share)
    (htransit : ∀ i, pc.transit i = []) (hreplying : ∀ c r, pc ≠ .replying c r) :
    Sound (d.setWorkio pc) where
  delivered i := by
    have hbox : box (d.setWorkio pc) i <+: box d i := by
      simp only [box, Workio.setWorkio, htransit, List.append_nil]
      exact (List.prefix_append_right_inj _).mpr (List.prefix_append _ _)
    exact ((List.prefix_append_right_inj _).mpr hbox).trans (h.delivered i)
  answered i := by
    have hold := h.answered i
    have hless := hasks i
    simp only [pending, Workio.setWorkio, List.countP_append] at hold ⊢
    omega
  open_one := h.open_one
  lock := h.lock
  shares := by
    have hold := h.shares
    simp only [pending, Workio.setWorkio, List.filterMap_append, hshares] at hold ⊢
    exact hold
  fits := h.fits
  replying c r hpc := absurd hpc (hreplying c r)

/-- A signal changes nothing. -/
theorem Sound.signal {d : Typed n W} (h : Sound d) : Sound (d.setWorkio d.workio.signalled) := by
  cases hpc : d.workio with
  | waiting =>
      refine h.workio ?_ ?_ (fun _ => rfl) fun _ _ heq => by cases heq
      · intro i
        rw [hpc]
        exact Nat.le_refl _
      · rw [hpc]
        rfl
  | _ =>
      simpa only [WorkioPc.signalled, Workio.setWorkio, ← hpc] using h

/-! ## Steps that send something -/

/-- A queue with one more behind. -/
def push {α : Type} (tq : ThreadQ α) (data : Option α) : ThreadQ α := { tq with q := tq.q ++ [data] }

theorem Sound.enqueue_null {d : Typed n W} (h : Sound d) :
    Sound { d with workQ := push d.workQ none } := by
  have hpending : pending { d with workQ := push d.workQ none } = pending d := by
    simp [pending, push, List.reduceOption_append, List.reduceOption_singleton]
  refine { h with answered := fun i => ?_, shares := ?_ }
  · rw [hpending]
    exact h.answered i
  · rw [hpending]
    exact h.shares

theorem pending_push (d : Typed n W) (c : SentCmd n W) :
    d.workio.current ++ (push d.workQ (some c)).q.reduceOption = pending d ++ [c] := by
  simp [pending, push, List.reduceOption_append, List.reduceOption_singleton]

theorem Sound.enqueue_request {d : Typed n W} (h : Sound d) {i : Fin n} {c : SentCmd n W}
    (hpc : d.miners i = .requesting c) :
    Sound ({ d with
      workQ := push d.workQ (some c)
      requests := Function.update d.requests i (d.requests i + 1) }.setMiner i .popping) where
  delivered j := by
    have hbox := h.delivered j
    by_cases hj : j = i
    · subst hj
      simp only [box, Workio.setMiner, Function.update_self, hpc] at hbox ⊢
      exact hbox
    · simp only [box, Workio.setMiner, Function.update_of_ne hj] at hbox ⊢
      exact hbox
  answered j := by
    have hold := h.answered j
    obtain ⟨wc, rfl⟩ : ∃ wc, c = .getWork wc i := by
      have hfits := h.fits i
      rwa [hpc] at hfits
    by_cases hj : j = i
    · subst hj
      simp only [Workio.setMiner, pending, pending_push, List.countP_append, Function.update_self]
        at hold ⊢
      have hone : [SentCmd.getWork (W := W) wc j].countP (SentCmd.asks j) ≤ 1 := List.countP_le_length
      omega
    · have hnot : [SentCmd.getWork (W := W) wc i].countP (SentCmd.asks j) = 0 := by
        simp [SentCmd.asks, Ne.symm hj]
      simp only [Workio.setMiner, pending, pending_push, List.countP_append, hnot, Nat.add_zero,
        Function.update_of_ne hj] at hold ⊢
      exact hold
  open_one j := by
    have hold := h.open_one j
    by_cases hj : j = i
    · subst hj
      simp only [Workio.setMiner, Function.update_self, hpc, MinerPc.asked, Bool.toNat_false,
        Bool.toNat_true] at hold ⊢
      omega
    · simpa only [Workio.setMiner, Function.update_of_ne hj] using hold
  lock := h.lock_update (by rw [hpc]; rfl)
  shares := by
    obtain ⟨wc, rfl⟩ : ∃ wc, c = .getWork wc i := by
      have hfits := h.fits i
      rwa [hpc] at hfits
    have hnone : [SentCmd.getWork (W := W) wc i].filterMap SentCmd.share = [] := rfl
    have hold := h.shares
    simp only [Workio.setMiner, pending, pending_push, List.filterMap_append, hnone,
      List.append_nil] at hold ⊢
    exact hold
  fits := fits_update h.fits trivial
  replying := h.replying

theorem Sound.enqueue_share {d : Typed n W} (h : Sound d) {i : Fin n} {c : SentCmd n W} {work : W}
    (hpc : d.miners i = .submitting c work) :
    Sound ({ d with
      workQ := push d.workQ (some c)
      submitted := d.submitted ++ [(i, work)] }.setMiner i .scanning) := by
  obtain ⟨wc, a, rfl⟩ : ∃ wc a, c = .submitWork wc a i work := by
    have hfits := h.fits i
    rwa [hpc] at hfits
  have hmove := h.move (i := i) .scanning d.gWorkLock
    (by rw [hpc]; rfl) (by rw [hpc]; intro hasked; cases hasked) trivial
    (by rw [← h.lock i, hpc]; exact ⟨(fun hold => by cases hold), fun hold => by cases hold⟩)
    fun j _ => Iff.rfl
  refine { hmove with answered := fun j => ?_, shares := ?_ }
  · have hold := h.answered j
    simp only [Workio.setMiner, pending, pending_push, List.countP_append] at hold ⊢
    simpa [SentCmd.asks] using hold
  · have hold := h.shares
    simp only [Workio.setMiner, pending, pending_push, List.filterMap_append] at hold ⊢
    rw [hold]
    simp [SentCmd.share]

/-! ## Steps that take something -/

theorem Sound.dequeue_reply {d : Typed n W} (h : Sound d) {i : Fin n} {r : Nat × W}
    {q : List (Option (Nat × W))} (hq : (d.qs i).q = some r :: q)
    (hhand : (d.miners i).inHand = []) (hholds : (d.miners i).holdsLock = true)
    (hasked : (d.miners i).asked = true) :
    Sound ((setQ d i { d.qs i with q := q }).setMiner i (.copying r)) where
  delivered j := by
    have hold := h.delivered j
    by_cases hj : j = i
    · subst hj
      simp only [box, Workio.setMiner, setQ, Function.update_self, hq, hhand,
        List.reduceOption_cons_of_some] at hold ⊢
      exact hold
    · simp only [box, Workio.setMiner, setQ, Function.update_of_ne hj] at hold ⊢
      exact hold
  answered := h.answered
  open_one j := by
    have hold := h.open_one j
    by_cases hj : j = i
    · subst hj
      rw [hasked] at hold
      simp only [Workio.setMiner, setQ, Function.update_self]
      exact hold
    · simpa only [Workio.setMiner, setQ, Function.update_of_ne hj] using hold
  lock := h.lock_update (by rw [hholds]; rfl)
  shares := h.shares
  fits := fits_update h.fits trivial
  replying := h.replying

/-- The queue of a miner changes and what is in it does not. -/
theorem Sound.requeue {d : Typed n W} (h : Sound d) (i : Fin n) (tq : ThreadQ (Nat × W))
    (hq : tq.q.reduceOption = (d.qs i).q.reduceOption) :
    Sound (setQ d i tq) := by
  refine { h with delivered := fun j => ?_ }
  have hold := h.delivered j
  by_cases hj : j = i
  · subst hj
    simp only [box, setQ, Function.update_self, hq] at hold ⊢
    exact hold
  · simp only [box, setQ, Function.update_of_ne hj] at hold ⊢
    exact hold

/-- `get_work` returns the work. -/
theorem Sound.copy {d : Typed n W} (h : Sound d) {i : Fin n} {r : Nat × W}
    (hpc : d.miners i = .copying r) :
    Sound ({ d with
      gWorkLock := none
      received := Function.update d.received i (d.received i ++ [r.2]) }.setMiner i .scanning) where
  delivered j := by
    have hold := h.delivered j
    by_cases hj : j = i
    · subst hj
      simp only [box, Workio.setMiner, Function.update_self, hpc] at hold ⊢
      rw [List.append_assoc]
      exact hold
    · simp only [box, Workio.setMiner, Function.update_of_ne hj] at hold ⊢
      exact hold
  answered := h.answered
  open_one j := by
    have hold := h.open_one j
    by_cases hj : j = i
    · subst hj
      rw [hpc] at hold
      simp only [Workio.setMiner, Function.update_self, List.length_append, List.length_singleton]
      exact hold
    · simpa only [Workio.setMiner, Function.update_of_ne hj] using hold
  lock j := by
    by_cases hj : j = i
    · subst hj
      simp only [Workio.setMiner, Function.update_self]
      exact ⟨(fun hlock => by cases hlock), fun hlock => by cases hlock⟩
    · simp only [Workio.setMiner, Function.update_of_ne hj]
      exact (h.lock j).trans (h.lock_others (by rw [hpc]; rfl) hj)
  shares := h.shares
  fits := fits_update h.fits trivial
  replying := h.replying

/-- The work I/O thread takes the first command. -/
theorem Sound.dequeue_cmd {d : Typed n W} (h : Sound d) {c : SentCmd n W}
    {q : List (Option (SentCmd n W))} (hq : d.workQ.q = some c :: q)
    (hcurrent : d.workio.current = []) (htransit : ∀ i, d.workio.transit i = []) :
    Sound ({ d with workQ := { d.workQ with q := q } }.setWorkio (.processing c)) := by
  have hpending : pending ({ d with workQ := { d.workQ with q := q } }.setWorkio
      (.processing c)) = pending d := by
    simp only [pending, Workio.setWorkio, hq, hcurrent, List.reduceOption_cons_of_some]
    rfl
  refine { h with
    delivered := fun i => ?_, answered := fun i => ?_, shares := ?_, replying := ?_ }
  · have hold := h.delivered i
    simp only [box, htransit] at hold
    exact hold
  · rw [hpending]
    exact h.answered i
  · rw [hpending]
    exact h.shares
  · intro c r heq
    cases heq

/-- It takes a NULL. -/
theorem Sound.dequeue_null {d : Typed n W} (h : Sound d) {q : List (Option (SentCmd n W))}
    (hq : d.workQ.q = none :: q) : Sound { d with workQ := { d.workQ with q := q } } := by
  have hpending : pending { d with workQ := { d.workQ with q := q } } = pending d := by
    simp only [pending, hq, List.reduceOption_cons_of_none]
  refine { h with answered := fun i => ?_, shares := ?_ }
  · rw [hpending]
    exact h.answered i
  · rw [hpending]
    exact h.shares

theorem eq_of_prefix_length {α : Type} {l t : List α} (h : l <+: t) (hlength : t.length ≤ l.length) :
    l = t :=
  List.IsPrefix.eq_of_length h (Nat.le_antisymm h.length_le hlength)

/-- An answer to the request in hand. Everything that was fetched before was received, since
the miner has only this request open. -/
theorem Sound.fetch {d : Typed n W} (h : Sound d) {i : Fin n} {wc : Nat} {r : Nat × W}
    (hpc : d.workio = .processing (.getWork wc i)) :
    Sound ({ d with fetched := Function.update d.fetched i (d.fetched i ++ [r.2]) }.setWorkio
      (.replying (.getWork wc i) r)) := by
  have hcount : ∀ j, (pending d).countP (SentCmd.asks j) =
      (if i = j then 1 else 0) + d.workQ.q.reduceOption.countP (SentCmd.asks j) := by
    intro j
    rw [pending, hpc, WorkioPc.current, List.countP_append, List.countP_singleton]
    simp [SentCmd.asks]
  have hown : d.received i ++ box d i = d.fetched i := by
    refine eq_of_prefix_length (h.delivered i) ?_
    have hanswered := h.answered i
    have hone := h.open_one i
    rw [hcount, if_pos rfl] at hanswered
    rw [List.length_append]
    have hasked := Bool.toNat_le (d.miners i).asked
    omega
  have htransit : ∀ j, d.workio.transit j = [] := fun j => by rw [hpc]; rfl
  refine { h with
    delivered := fun j => ?_, answered := fun j => ?_, shares := ?_, replying := ?_ }
  · by_cases hj : j = i
    · subst hj
      simp only [box, Workio.setWorkio, Function.update_self, WorkioPc.transit_self, htransit,
        List.append_nil] at hown ⊢
      rw [← hown, List.append_assoc, List.append_assoc]
    · have hold := h.delivered j
      simp only [box, htransit] at hold
      simp only [box, Workio.setWorkio, Function.update_of_ne hj, WorkioPc.transit_other hj]
      exact hold
  · have hold := h.answered j
    rw [hcount] at hold
    have hcurrent : pending ({ d with
        fetched := Function.update d.fetched i (d.fetched i ++ [r.2]) }.setWorkio
        (.replying (.getWork wc i) r)) = d.workQ.q.reduceOption := rfl
    rw [hcurrent]
    by_cases hj : j = i
    · subst hj
      rw [if_pos rfl] at hold
      simp only [Workio.setWorkio, Function.update_self, List.length_append, List.length_singleton]
      omega
    · rw [if_neg (Ne.symm hj), Nat.zero_add] at hold
      simpa only [Workio.setWorkio, Function.update_of_ne hj] using hold
  · have hold := h.shares
    rw [pending, hpc, List.filterMap_append] at hold
    exact hold
  · intro c r' heq
    cases heq
    exact ⟨wc, i, rfl⟩

/-- The answer is sent to the miner that asked. -/
theorem Sound.reply {d : Typed n W} (h : Sound d) {i : Fin n} {wc : Nat} {r : Nat × W}
    (hpc : d.workio = .replying (.getWork wc i) r) (ok : Bool) :
    Sound ((setQ d i (push (d.qs i) (some r))).setWorkio (.freeing (.getWork wc i) ok)) := by
  refine { h with
    delivered := fun j => ?_, answered := fun j => ?_, shares := ?_, replying := ?_ }
  · have hold := h.delivered j
    by_cases hj : j = i
    · subst hj
      simp only [box, hpc, WorkioPc.transit_self] at hold
      simp only [box, Workio.setWorkio, setQ, Function.update_self, push, List.reduceOption_append,
        List.reduceOption_singleton, Option.toList_some, List.map_append, List.map_singleton,
        WorkioPc.transit, List.append_nil]
      exact hold
    · simp only [box, hpc, WorkioPc.transit_other hj] at hold
      simp only [box, Workio.setWorkio, setQ, Function.update_of_ne hj, WorkioPc.transit]
      exact hold
  · have hold := h.answered j
    rw [pending, hpc] at hold
    exact hold
  · have hold := h.shares
    rw [pending, hpc] at hold
    exact hold
  · intro c r' heq
    cases heq

/-- A share is handed on. -/
theorem Sound.process {d : Typed n W} (h : Sound d) {i : Fin n} {wc a : Nat} {w : W}
    (hpc : d.workio = .processing (.submitWork wc a i w)) (ok : Bool) :
    Sound ({ d with processed := d.processed ++ [((i, w), ok)] }.setWorkio
      (.freeing (.submitWork wc a i w) ok)) := by
  refine { h with
    delivered := fun j => ?_, answered := fun j => ?_, shares := ?_, replying := ?_ }
  · have hold := h.delivered j
    simp only [box, hpc] at hold
    exact hold
  · have hold := h.answered j
    rw [pending, hpc, List.countP_append] at hold
    exact Nat.le_trans (Nat.add_le_add_right (Nat.le_add_left _ _) _) hold
  · have hold := h.shares
    rw [pending, hpc, List.filterMap_append] at hold
    simp only [Workio.setWorkio, pending, WorkioPc.current, List.map_append, List.append_assoc]
    exact hold
  · intro c r heq
    cases heq

theorem Sound.signalMiner {d : Typed n W} (h : Sound d) (i : Fin n) :
    Sound (d.setMiner i (d.miners i).signalled) := by
  have hlock := h.lock i
  have hfits := h.fits i
  cases hpc : d.miners i with
  | waiting =>
      rw [hpc] at hlock
      refine h.move _ d.gWorkLock ?_ ?_ trivial hlock fun _ _ => Iff.rfl
      · rw [hpc]
        rfl
      · exact fun _ => rfl
  | _ =>
      simp only [Workio.setMiner, MinerPc.signalled]
      rw [← hpc, Function.update_eq_self]
      exact h

/-! ## What is pushed -/

theorem pushWork_true {d : Typed n W} {ent : Bool} {data : Option (SentCmd n W)}
    (h : (d.pushWork ent data).1 = true) : (d.pushWork ent data).2 =
      { d.setWorkio d.workio.signalled with workQ := push d.workQ data } := by
  cases ent with
  | false => cases h
  | true =>
      cases hfrozen : d.workQ.frozen with
      | true => simp [Workio.pushWork, Workio.tqPushEnt, tqPush, hfrozen] at h
      | false => simp [Workio.pushWork, Workio.tqPushEnt, tqPush, hfrozen, Workio.setWorkio, push]

theorem pushWork_false {d : Typed n W} {ent : Bool} {data : Option (SentCmd n W)}
    (h : (d.pushWork ent data).1 = false) : (d.pushWork ent data).2 = d ∨
      (d.pushWork ent data).2 = d.setWorkio d.workio.signalled := by
  cases ent with
  | false => exact .inl rfl
  | true =>
      cases hfrozen : d.workQ.frozen with
      | true =>
          refine .inr ?_
          simp [Workio.pushWork, Workio.tqPushEnt, tqPush, hfrozen, Workio.setWorkio]
      | false => simp [Workio.pushWork, Workio.tqPushEnt, tqPush, hfrozen] at h

theorem pushReply_true {d : Typed n W} {i : Fin n} {ent : Bool} {r : Nat × W}
    (h : (d.pushReply i ent r).1 = true) : (d.pushReply i ent r).2 =
      setQ (d.setMiner i (d.miners i).signalled) i (push (d.qs i) (some r)) := by
  cases ent with
  | false => cases h
  | true =>
      cases hfrozen : (d.qs i).frozen with
      | true => simp [Workio.pushReply, Workio.tqPushEnt, tqPush, hfrozen] at h
      | false => simp [Workio.pushReply, Workio.tqPushEnt, tqPush, hfrozen, Workio.setMiner, setQ, push]

theorem pushReply_false {d : Typed n W} {i : Fin n} {ent : Bool} {r : Nat × W}
    (h : (d.pushReply i ent r).1 = false) : (d.pushReply i ent r).2 = d ∨
      (d.pushReply i ent r).2 = d.setMiner i (d.miners i).signalled := by
  cases ent with
  | false =>
      refine .inl ?_
      simp [Workio.pushReply, Workio.tqPushEnt]
  | true =>
      cases hfrozen : (d.qs i).frozen with
      | true =>
          refine .inr ?_
          simp [Workio.pushReply, Workio.tqPushEnt, tqPush, hfrozen, Workio.setMiner]
      | false => simp [Workio.pushReply, Workio.tqPushEnt, tqPush, hfrozen] at h

/-- A command that was not taken leaves all as it was, but for a signal. -/
theorem Sound.refused {d : Typed n W} (h : Sound d) {ent : Bool} {data : Option (SentCmd n W)}
    (hrc : (d.pushWork ent data).1 = false) : Sound (d.pushWork ent data).2 ∧
      (d.pushWork ent data).2.miners = d.miners ∧ (d.pushWork ent data).2.qs = d.qs ∧
      (d.pushWork ent data).2.workQ = d.workQ ∧
      (d.pushWork ent data).2.workio.cells = d.workio.cells := by
  rcases pushWork_false hrc with heq | heq
  · rw [heq]
    exact ⟨h, rfl, rfl, rfl, rfl⟩
  · rw [heq]
    exact ⟨h.signal, rfl, rfl, rfl, cells_workio_signalled d.workio⟩

end Typed

end AlphaMiner
