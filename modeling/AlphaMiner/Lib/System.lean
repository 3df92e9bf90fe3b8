import Mathlib.Init

/-!
# Transition systems and their invariants

A component that reacts to its environment, or several threads that take turns,
is a set of initial states and a labelled step relation. `Reachable` is what
any run can come to, and `Reachable.invariant` is the one induction over runs.

`guard` restricts a system to the runs in which a condition holds of every step
that is taken. A property that fails in general is then stated of the guarded
system, and `Reachable.of_guard` brings along whatever is known of all runs.
`Reachable.simulate` is how a concrete system is compared with an abstract one:
each of its steps is one of the abstract system or none at all.
`Reachable.replay` turns a list of actions that a step function accepts into a
reachable state, which is how a single run is exhibited.
-/

namespace AlphaMiner.Lib

universe u v w x

structure Lts (σ : Type u) (α : Type v) where
  init : σ → Prop
  next : σ → α → σ → Prop

namespace Lts

variable {σ : Type u} {α : Type v} {L : Lts σ α}

inductive Reachable (L : Lts σ α) : σ → Prop where
  | init {s : σ} : L.init s → Reachable L s
  | step {s s' : σ} {a : α} : Reachable L s → L.next s a s' → Reachable L s'

/-- What holds at the start and is kept by every step holds throughout. -/
theorem Reachable.invariant {I : σ → Prop} {s : σ} (h : L.Reachable s)
    (hinit : ∀ s, L.init s → I s) (hstep : ∀ s a s', I s → L.next s a s' → I s') : I s := by
  induction h with
  | init h => exact hinit _ h
  | step _ hnext ih => exact hstep _ _ _ ih hnext

/-- The runs of `L` whose every step meets `c`. -/
def guard (L : Lts σ α) (c : σ → α → Prop) : Lts σ α where
  init := L.init
  next s a s' := c s a ∧ L.next s a s'

theorem Reachable.of_guard {c : σ → α → Prop} {s : σ} (h : (L.guard c).Reachable s) :
    L.Reachable s := by
  induction h with
  | init h => exact .init h
  | step _ hnext ih => exact .step ih hnext.2

/-- Every run of `K` is followed by a run of `L`, which may stay where it is. -/
theorem Reachable.simulate {τ : Type w} {β : Type x} {K : Lts τ β} {R : τ → σ → Prop} {t : τ}
    (h : K.Reachable t) (hinit : ∀ t, K.init t → ∃ s, L.init s ∧ R t s)
    (hstep : ∀ t b t' s, R t s → K.next t b t' →
      R t' s ∨ ∃ a s', L.next s a s' ∧ R t' s') : ∃ s, L.Reachable s ∧ R t s := by
  refine h.invariant (I := fun t => ∃ s, L.Reachable s ∧ R t s) (fun t ht => ?_) ?_
  · obtain ⟨s, hs, hR⟩ := hinit t ht
    exact ⟨s, .init hs, hR⟩
  · rintro t b t' ⟨s, hs, hR⟩ hnext
    rcases hstep t b t' s hR hnext with hR' | ⟨a, s', hnext', hR'⟩
    · exact ⟨s, hs, hR'⟩
    · exact ⟨s', hs.step hnext', hR'⟩

theorem Reachable.replay {f : σ → α → Option σ} (hf : ∀ s a s', f s a = some s' → L.next s a s')
    {s s' : σ} {as : List α} (hs : L.Reachable s) (has : as.foldlM f s = some s') :
    L.Reachable s' := by
  induction as generalizing s with
  | nil =>
      obtain rfl : s = s' := by simpa using has
      exact hs
  | cons a as ih =>
      rw [List.foldlM_cons] at has
      cases ha : f s a with
      | none =>
          rw [ha] at has
          cases has
      | some t =>
          rw [ha] at has
          exact ih (hs.step (hf s a t ha)) has

/-- A replay that also checks the condition of a guard. -/
theorem Reachable.replay_guard {c : σ → α → Prop} [∀ s a, Decidable (c s a)]
    {f : σ → α → Option σ} (hf : ∀ s a s', f s a = some s' → L.next s a s') {s s' : σ}
    {as : List α} (hs : (L.guard c).Reachable s)
    (has : as.foldlM (fun s a => if c s a then f s a else none) s = some s') :
    (L.guard c).Reachable s' := by
  refine hs.replay (fun s a s' h => ?_) has
  by_cases hc : c s a
  · rw [if_pos hc] at h
    exact ⟨hc, hf s a s' h⟩
  · rw [if_neg hc] at h
    cases h

end Lts

end AlphaMiner.Lib
