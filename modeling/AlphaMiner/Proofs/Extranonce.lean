import AlphaMiner.Model.Extranonce
import AlphaMiner.Proofs.JobLayout
import Mathlib.Data.List.Nodup
import Mathlib.Data.Nat.ModEq

/-!
# No extra nonce twice

The second extra nonce is a counter of `s` bytes, least significant first, and
every call takes it and counts it up modulo `256 ^ s`. So as many calls as there
are values get different ones, as long as nobody else writes to the counter.

A notification that repeats the job does, unless the counter stays where it is.
The buffer is laid out anew and the counter is kept by not being written, and
what is kept is the place and not the value: after a first half of another
length it is some other part of the old coinbase.
-/

namespace AlphaMiner

open Lib

/-! ## What is wanted, and when it is had -/

/-- No two of the first `256 ^ s` works have one extra nonce. -/
def JobLife.Distinct (s : JobLife) : Prop :=
  (s.handed.take (256 ^ s.ctx.xnonce2Size)).Nodup

/-- A notification that is taken leaves the counter at its place. -/
def JobLife.StaysPut (s : JobLife) : JobEvent → Prop
  | .notify _ params => ∀ n ∈ notifyParams params,
      n.coinb1.length / 2 + s.ctx.xnonce1.length = s.ctx.job.xnonce2
  | .generate _ => True

def steadyLife (sha256d : Bytes → Hash) (host : ByteOrder) : Lts JobLife JobEvent :=
  (jobLife sha256d host).guard JobLife.StaysPut

/-! ## Counting -/

/-- The carry runs as far as there are bytes. -/
theorem leValue_incBytes (b : Bytes) :
    leValue (incBytes b) = (leValue b + 1) % 256 ^ b.length := by
  induction b with
  | nil => rfl
  | cons b rest ih =>
      have hb := b.toNat_lt
      have hrest := leValue_lt rest
      have hsucc : (b + 1).toNat = (b.toNat + 1) % 256 := UInt8.toNat_add b 1
      rw [incBytes, leValue_cons, List.length_cons, Nat.pow_succ']
      split
      · next hcarry =>
          rw [hcarry, show (0 : UInt8).toNat = 0 from rfl] at hsucc
          rw [hcarry, leValue_cons, ih, ← Nat.mul_mod_mul_left,
            show b.toNat + 256 * leValue rest + 1 = 256 * (leValue rest + 1) by omega]
          exact Nat.zero_add _
      · next hcarry =>
          have hlt : b.toNat + 1 < 256 := by
            by_contra hmax
            refine hcarry (UInt8.toNat_inj.mp ?_)
            rw [hsucc, show b.toNat = 255 by omega]
            rfl
          rw [leValue_cons, hsucc, Nat.mod_eq_of_lt hlt, Nat.mod_eq_of_lt (by omega)]
          omega

theorem length_iterate_incBytes (b : Bytes) (k : Nat) :
    (incBytes^[k] b).length = b.length := by
  induction k with
  | zero => rfl
  | succ k ih => rw [Function.iterate_succ_apply', length_incBytes, ih]

theorem leValue_iterate (b : Bytes) (k : Nat) :
    leValue (incBytes^[k] b) = (leValue b + k) % 256 ^ b.length := by
  induction k with
  | zero => exact (Nat.mod_eq_of_lt (leValue_lt b)).symm
  | succ k ih =>
      rw [Function.iterate_succ_apply', leValue_incBytes, length_iterate_incBytes, ih,
        Nat.mod_add_mod, Nat.add_assoc]

/-- The values of a whole round of the counter. -/
theorem nodup_counter (b : Bytes) {k : Nat} (hk : k ≤ 256 ^ b.length) :
    ((List.range k).map fun i => incBytes^[i] b).Nodup := by
  refine List.Nodup.map_on (fun i hi j hj hij => ?_) List.nodup_range
  have hi := List.mem_range.mp hi
  have hj := List.mem_range.mp hj
  have hvalue := congrArg leValue hij
  rw [leValue_iterate, leValue_iterate] at hvalue
  have hmod : i ≡ j [MOD 256 ^ b.length] := Nat.ModEq.add_left_cancel' (leValue b) hvalue
  exact Nat.ModEq.eq_of_lt_of_lt hmod (by omega) (by omega)

/-! ## Whole runs -/

/-- The counter lies in the layout of some notification, and has come from `b`
by one step for each work. -/
def CountsFrom (b : Bytes) (s : JobLife) : Prop :=
  b.length = s.ctx.xnonce2Size ∧
    s.handed = (List.range s.handed.length).map (fun i => incBytes^[i] b) ∧
    ∃ n, Window n s.ctx (incBytes^[s.handed.length] b)

section

variable {sha256d : Bytes → Hash} {host : ByteOrder} {s s' : JobLife}

theorem countsFrom_notify {b : Bytes} {heap : Nat → UInt8} {params : Option Json}
    (hs : CountsFrom b s) (hput : s.StaysPut (.notify heap params))
    (h : jobStep sha256d host s (.notify heap params) = some s') : CountsFrom b s' := by
  obtain ⟨hlen, hhanded, m, hwindow⟩ := hs
  rw [jobStep] at h
  split at h
  · cases h
    exact ⟨hlen, hhanded, m, hwindow⟩
  · next n hn =>
      split at h
      · next hagain =>
          cases h
          rw [stratumNotify, hn]
          exact ⟨hlen, hhanded, n, window_again heap hwindow hagain (hput n hn)⟩
      · cases h

theorem countsFrom_generate {b : Bytes} {work : Work} (hs : CountsFrom b s)
    (h : jobStep sha256d host s (.generate work) = some s') : CountsFrom b s' := by
  obtain ⟨hlen, hhanded, m, hwindow⟩ := hs
  rw [jobStep] at h
  split at h
  · cases h
  · next ctx filled hgen =>
      cases h
      obtain ⟨_, xnonce2, -, hslice, hctx, -, hfilled, -⟩ := stratumGenWork_some hgen
      obtain rfl : xnonce2 = incBytes^[s.handed.length] b :=
        Option.some.inj (hslice.symm.trans hwindow.slice)
      refine ⟨by rw [hctx]; exact hlen, ?_, m, ?_⟩
      · simp only
        rw [hfilled, Option.toList_some, List.length_append, List.length_singleton,
          List.range_succ, List.map_append, ← hhanded]
        rfl
      · simp only
        rw [hfilled, Option.toList_some, List.length_append, List.length_singleton,
          Function.iterate_succ_apply', hctx]
        exact hwindow.set (length_incBytes _)

theorem countsFrom_reachable (h : (steadyLife sha256d host).Reachable s) :
    ∃ b, CountsFrom b s := by
  refine Lts.Reachable.invariant (I := fun s => ∃ b, CountsFrom b s) h ?_ ?_
  · intro s ⟨⟨heap, params, ctx, hnotify⟩, hnone⟩
    rw [stratumNotify] at hnotify
    split at hnotify
    · cases hnotify
    · next n hn =>
        obtain ⟨x₂, hwindow⟩ := window_notify heap n ctx
        have hctx := (Prod.mk.inj hnotify).2
        rw [hctx] at hwindow
        have hlen : x₂.length = s.ctx.xnonce2Size := by
          obtain ⟨_, _, -, -, hx₂, -, -⟩ := hwindow
          exact hx₂
        refine ⟨x₂, hlen, ?_, n, ?_⟩
        · rw [hnone]
          rfl
        · rw [hnone]
          exact hwindow
  · intro s e s' ⟨b, hs⟩ hnext
    cases e with
    | notify heap params => exact ⟨b, countsFrom_notify hs hnext.1 hnext.2⟩
    | generate work => exact ⟨b, countsFrom_generate hs hnext.2⟩

/-- In a run whose notifications leave the counter at its place, a job's extra
nonces are different until all of them have been used. -/
theorem distinct_extranonces (h : (steadyLife sha256d host).Reachable s) : s.Distinct := by
  obtain ⟨b, hlen, hhanded, -⟩ := countsFrom_reachable h
  rw [JobLife.Distinct, hhanded, ← List.map_take, List.take_range]
  exact nodup_counter b (by rw [hlen]; exact Nat.min_le_left _ _)

end

/-! ## A job that is sent again -/

instance (s : JobLife) : DecidablePred s.StaysPut := fun
  | .notify _ params => inferInstanceAs (Decidable (∀ n ∈ notifyParams params,
      n.coinb1.length / 2 + s.ctx.xnonce1.length = s.ctx.job.xnonce2))
  | .generate _ => instDecidableTrue

def lifeHash (_ : Bytes) : Hash := .replicate 32 0

def lifeParams (coinb1 : String) : Option Json :=
  jobParams (ascii "01") (ascii coinb1) (ascii "00")

/-- A job with a first half of one byte, under a subscription to one byte of
extra nonce. -/
def lifeStart : JobLife where
  ctx := (stratumNotify (fun _ => 0) (lifeParams "01")
    { StratumCtx.zero with xnonce2Size := 1 }).2
  handed := []

theorem lifeStart_init : (jobLife lifeHash .little).init lifeStart :=
  ⟨⟨fun _ => 0, lifeParams "01", { StratumCtx.zero with xnonce2Size := 1 }, rfl⟩, rfl⟩

/-- Work, the job again with another first half, and work again. -/
def lifeRun (coinb1 : String) : List JobEvent :=
  [.generate .zero, .notify (fun _ => 0) (lifeParams coinb1), .generate .zero]

theorem distinct_extranonces_sample :
    ∃ s, (steadyLife lifeHash .little).Reachable s ∧ s.handed = [[0], [1]] ∧ s.Distinct := by
  have hrun : ∃ s ∈ (lifeRun "02").foldlM (fun (s : JobLife) e =>
      if s.StaysPut e then jobStep lifeHash .little s e else none) lifeStart,
      s.handed = [[0], [1]] := by decide +kernel
  obtain ⟨s, hrun, hhanded⟩ := hrun
  have hreach : (steadyLife lifeHash .little).Reachable s :=
    Lts.Reachable.replay_guard (fun _ _ _ h => h) (.init lifeStart_init) hrun
  exact ⟨s, hreach, hhanded, distinct_extranonces hreach⟩

/-- One byte more in front, and the counter is the zero that was behind it. -/
theorem distinct_extranonces_fails :
    ¬∀ s, (jobLife lifeHash .little).Reachable s → s.Distinct := by
  intro hclaim
  have hrun : ∃ s ∈ (lifeRun "0102").foldlM (jobStep lifeHash .little) lifeStart,
      s.handed = [[0], [0]] ∧ s.ctx.xnonce2Size = 1 := by decide +kernel
  obtain ⟨s, hrun, hhanded, hsize⟩ := hrun
  have hreach : (jobLife lifeHash .little).Reachable s :=
    Lts.Reachable.replay (fun _ _ _ h => h) (.init lifeStart_init) hrun
  have hdistinct := hclaim s hreach
  rw [JobLife.Distinct, hhanded, hsize] at hdistinct
  exact absurd hdistinct (by decide)

end AlphaMiner
