import Mathlib.Data.List.Basic

/-!
# Hash trees

The tree over a list of leaves, folded level by level: the nodes of a level are
combined in pairs, and a level of odd length combines its last node with
itself. `treeRoot` is the node that is left in the end.

A program keeps its levels in an array, where a level is a length and a
function from places to nodes. `treeRoot_step` is one level in these terms, and
it is all that a loop over such an array needs: whatever the program does, if
the array then holds the combined pairs, it has the same root as before.
-/

namespace AlphaMiner.Lib

universe u

variable {α : Type u}

def treeLevel (c : α → α → α) : List α → List α
  | [] => []
  | [a] => [c a a]
  | a :: b :: rest => c a b :: treeLevel c rest

@[simp] theorem length_treeLevel (c : α → α → α) :
    ∀ l : List α, (treeLevel c l).length = (l.length + 1) / 2
  | [] => by rw [treeLevel, List.length_nil]
  | [_] => by rw [treeLevel, List.length_singleton, List.length_singleton]
  | a :: b :: rest => by
      rw [treeLevel, List.length_cons, length_treeLevel c rest]
      simp only [List.length_cons]
      omega

/-- The root of the tree over the leaves, of which there must be one. -/
def treeRoot (c : α → α → α) : List α → Option α
  | [] => none
  | [a] => some a
  | a :: b :: rest => treeRoot c (treeLevel c (a :: b :: rest))
termination_by l => l.length
decreasing_by
  rw [length_treeLevel]
  simp only [List.length_cons]
  omega

/-- A level of `n` nodes that are the values of a function. -/
theorem treeLevel_range (c : α → α → α) :
    ∀ (n : Nat) (f : Nat → α), treeLevel c ((List.range n).map f) =
      (List.range ((n + 1) / 2)).map fun j => c (f (2 * j)) (f (min (2 * j + 1) (n - 1)))
  | 0, _ => rfl
  | 1, _ => rfl
  | n + 2, f => by
      have ih := treeLevel_range c n fun i => f (i + 2)
      rw [show (n + 2 + 1) / 2 = (n + 1) / 2 + 1 by omega]
      simp only [List.range_succ_eq_map, List.map_cons, List.map_map, treeLevel] at ih ⊢
      have hshift : f ∘ Nat.succ ∘ Nat.succ = fun i => f (i + 2) := rfl
      rw [hshift, ih]
      rw [show min (2 * 0 + 1) (n + 2 - 1) = Nat.succ 0 by omega]
      congr 1
      apply List.map_congr_left
      intro j hj
      have hj := List.mem_range.mp hj
      rw [Function.comp_apply, Nat.succ_eq_add_one, show 2 * j + 2 = 2 * (j + 1) by omega,
        show min (2 * j + 1) (n - 1) + 2 = min (2 * (j + 1) + 1) (n + 2 - 1) by omega]

/-- One level of an array of nodes. -/
theorem treeRoot_step (c : α → α → α) {n : Nat} {f g : Nat → α} (hn : 2 ≤ n)
    (hg : ∀ j < (n + 1) / 2, g j = c (f (2 * j)) (f (min (2 * j + 1) (n - 1)))) :
    treeRoot c ((List.range ((n + 1) / 2)).map g) = treeRoot c ((List.range n).map f) := by
  obtain ⟨m, rfl⟩ : ∃ m, n = m + 2 := ⟨n - 2, by omega⟩
  have hlevel : (List.range ((m + 2 + 1) / 2)).map g =
      treeLevel c ((List.range (m + 2)).map f) := by
    rw [treeLevel_range]
    exact List.map_congr_left fun j hj => hg j (List.mem_range.mp hj)
  have hsplit : (List.range (m + 2)).map f =
      f 0 :: f 1 :: (List.range m).map fun i => f (i + 2) := by
    simp only [List.range_succ_eq_map, List.map_cons, List.map_map]
    rfl
  rw [hlevel, hsplit, treeRoot.eq_3]

end AlphaMiner.Lib
