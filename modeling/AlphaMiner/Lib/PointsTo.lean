import Mathlib.Data.Multiset.Basic
import Mathlib.Data.Multiset.MapFold
import Mathlib.Data.Multiset.Count
import Mathlib.Logic.Function.Basic

/-!
# A heap and what is held of it

A heap gives what is stored at an address, if the address is allocated. `Owns` says
that a heap is made of the cells of a multiset, no address twice: each holder of a
pointer brings the cells it answers for, and all of them together are the heap. So
an address that a holder has is allocated, nobody else has it, and nothing is
allocated that nobody has.

Allocating adds a cell and freeing takes one away. Whatever else the multiset is made of
stays.
-/

namespace AlphaMiner.Lib

variable {A B : Type} [DecidableEq A]

structure Owns (heap : A → Option B) (cells : Multiset (A × B)) : Prop where
  nodup : (cells.map Prod.fst).Nodup
  mem_iff : ∀ a b, (a, b) ∈ cells ↔ heap a = some b

namespace Owns

variable {heap : A → Option B} {cells : Multiset (A × B)} {a : A} {b : B}

omit [DecidableEq A] in
theorem empty : Owns (fun _ : A => (none : Option B)) 0 :=
  ⟨Multiset.nodup_zero, fun _ _ => ⟨fun h => absurd h (Multiset.notMem_zero _), fun h => by cases h⟩⟩

omit [DecidableEq A] in
theorem of_eq {cells' : Multiset (A × B)} (h : Owns heap cells) (heq : cells = cells') :
    Owns heap cells' := heq ▸ h

omit [DecidableEq A] in
/-- Reading what one holds. -/
theorem read (h : Owns heap ({(a, b)} + cells)) : heap a = some b :=
  (h.mem_iff a b).mp (Multiset.mem_add.mpr (.inl (Multiset.mem_singleton_self _)))

omit [DecidableEq A] in
theorem fresh (h : Owns heap cells) (ha : heap a = none) : a ∉ cells.map Prod.fst := by
  intro hmem
  obtain ⟨⟨a', b⟩, hcell, rfl⟩ := Multiset.mem_map.mp hmem
  rw [(h.mem_iff a' b).mp hcell] at ha
  cases ha

theorem alloc (h : Owns heap cells) (ha : heap a = none) (b : B) :
    Owns (Function.update heap a (some b)) ({(a, b)} + cells) := by
  refine ⟨?_, fun a' b' => ?_⟩
  · rw [Multiset.map_add, Multiset.map_singleton, Multiset.singleton_add, Multiset.nodup_cons]
    exact ⟨h.fresh ha, h.nodup⟩
  · rw [Multiset.mem_add, Multiset.mem_singleton, h.mem_iff]
    by_cases heq : a' = a
    · subst heq
      rw [Function.update_self, ha, Option.some_inj]
      simp [eq_comm]
    · rw [Function.update_of_ne heq]
      simp [heq]

theorem free (h : Owns heap ({(a, b)} + cells)) : Owns (Function.update heap a none) cells := by
  have hnodup := h.nodup
  rw [Multiset.map_add, Multiset.map_singleton, Multiset.singleton_add, Multiset.nodup_cons] at hnodup
  refine ⟨hnodup.2, fun a' b' => ?_⟩
  by_cases heq : a' = a
  · subst heq
    rw [Function.update_self]
    refine ⟨fun hmem => absurd (Multiset.mem_map_of_mem Prod.fst hmem) hnodup.1, fun hnone => ?_⟩
    cases hnone
  · rw [Function.update_of_ne heq, ← h.mem_iff, Multiset.mem_add, Multiset.mem_singleton]
    simp [heq]

omit [DecidableEq A] in
/-- Nothing is held, so nothing is allocated. -/
theorem none_of_zero (h : Owns heap 0) (a : A) : heap a = none := by
  cases ha : heap a with
  | none => rfl
  | some b => exact absurd ((h.mem_iff a b).mpr ha) (Multiset.notMem_zero _)

end Owns

end AlphaMiner.Lib
