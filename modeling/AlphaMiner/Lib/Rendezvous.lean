import AlphaMiner.Lib.System
import Mathlib.Logic.Function.Basic

/-!
# Meeting again and again

What a barrier is for. Some threads come to a point and go on from it, and come again.
Nobody goes on from there for the `k`-th time before all have come for the `k`-th time.
`lts` is the least that has to be asked of each, and `lockstep` is what follows for all
of them.
-/

namespace AlphaMiner.Lib

universe u

/-- How often each has come, and gone on. -/
structure Rendezvous (ι : Type u) where
  calls : ι → Nat
  returns : ι → Nat

namespace Rendezvous

variable {ι : Type u}

inductive Event (ι : Type u) where
  | call (i : ι)
  | ret (i : ι)

/-- Whoever comes is not there already, and whoever goes on has seen all the others come
as often as itself. -/
inductive Next [DecidableEq ι] (s : Rendezvous ι) : Event ι → Rendezvous ι → Prop where
  | call (i : ι) (hout : s.calls i = s.returns i) :
      Next s (.call i) { s with calls := Function.update s.calls i (s.calls i + 1) }
  | ret (i : ι) (hin : s.returns i < s.calls i) (hall : ∀ j, s.calls i ≤ s.calls j) :
      Next s (.ret i) { s with returns := Function.update s.returns i (s.returns i + 1) }

def lts (ι : Type u) [DecidableEq ι] : Lts (Rendezvous ι) (Event ι) where
  init s := s = ⟨fun _ => 0, fun _ => 0⟩
  next s e s' := Next s e s'

structure Lockstep (s : Rendezvous ι) : Prop where
  inside : ∀ i, s.returns i ≤ s.calls i ∧ s.calls i ≤ s.returns i + 1
  behind : ∀ i j, s.returns i ≤ s.calls j

variable [DecidableEq ι] {s s' : Rendezvous ι}

theorem Lockstep.next {e : Event ι} (h : Lockstep s) (hnext : Next s e s') : Lockstep s' := by
  cases hnext with
  | call i hout =>
      have hmore : ∀ j, s.calls j ≤ Function.update s.calls i (s.calls i + 1) j := by
        intro j
        by_cases hj : j = i
        · subst hj
          rw [Function.update_self]
          exact Nat.le_succ _
        · exact Nat.le_of_eq (Function.update_of_ne hj _ _).symm
      refine ⟨fun j => ⟨Nat.le_trans (h.inside j).1 (hmore j), ?_⟩,
        fun j k => Nat.le_trans (h.behind j k) (hmore k)⟩
      by_cases hj : j = i
      · subst hj
        simp only [Function.update_self]
        omega
      · simp only [Function.update_of_ne hj]
        exact (h.inside j).2
  | ret i hin hall =>
      have hone := (h.inside i).2
      have hlast : ∀ k, s.returns i + 1 ≤ s.calls k := fun k => Nat.le_trans hin (hall k)
      refine ⟨fun j => ?_, fun j k => ?_⟩
      · by_cases hj : j = i
        · subst hj
          simp only [Function.update_self]
          omega
        · simp only [Function.update_of_ne hj]
          exact h.inside j
      · by_cases hj : j = i
        · subst hj
          simp only [Function.update_self]
          exact hlast k
        · simp only [Function.update_of_ne hj]
          exact h.behind j k

/-- Nobody is a round ahead of another. -/
theorem lockstep (h : (lts ι).Reachable s) : Lockstep s := by
  refine h.invariant (fun s hs => ?_) fun _ _ _ hs hnext => hs.next hnext
  rw [show s = ⟨fun _ => 0, fun _ => 0⟩ from hs]
  exact ⟨fun _ => ⟨Nat.le_refl 0, Nat.zero_le 1⟩, fun _ _ => Nat.le_refl 0⟩

end Rendezvous

end AlphaMiner.Lib
