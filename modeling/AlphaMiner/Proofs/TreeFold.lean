import AlphaMiner.Proofs.GbtHeader

/-!
# The folds stay in their arrays

`foldTree_ok` says what a fold leaves if it comes to its end. Here it comes to
its end. A level of `n` nodes needs room for `n` rounded up to an even number,
which is what either allocation has for the first level and what every level
leaves for the next. A stage that cannot fail is `pure`, so that the proof of a
run is a chain of equations.

Fuel is not part of the program. A fold that comes to its end with every fuel
from `n` on, and with the same array, is a loop that ends.
-/

namespace AlphaMiner

open Lib

namespace Gbt

theorem poke_of_fits {buf bs : Bytes} {off : Nat} (h : off + bs.length ≤ buf.length) :
    poke buf off bs = pure (store buf off bs) := by
  rw [poke, store?, if_pos h]

theorem poke_of_not_fits {buf bs : Bytes} {off : Nat} (h : ¬off + bs.length ≤ buf.length) :
    poke buf off bs = throw .fault := by
  rw [poke, store?, if_neg h]

theorem peek_of_fits {buf : Bytes} {off n : Nat} (h : off + n ≤ buf.length) :
    peek buf off n = pure (slice buf off n) := by
  rw [peek, slice?, if_pos h]

/-- Two writes in a row are one, also where there is no room for them. -/
theorem poke_poke {buf x y : Bytes} {off off' : Nat} (hoff : off' = off + x.length) :
    (poke buf off x >>= fun buf => poke buf off' y) = poke buf off (x ++ y) := by
  by_cases hx : off + x.length ≤ buf.length
  · rw [poke_of_fits hx, pure_bind]
    by_cases hy : off' + y.length ≤ buf.length
    · have hxy : off + (x ++ y).length ≤ buf.length := by
        rw [List.length_append]
        omega
      rw [poke_of_fits ((length_store hx).symm ▸ hy), store_append hoff hx, poke_of_fits hxy]
    · rw [poke_of_not_fits ((length_store hx).symm ▸ hy), poke_of_not_fits ?_]
      rw [List.length_append]
      omega
  · rw [poke_of_not_fits hx, throw_bind, poke_of_not_fits ?_]
    rw [List.length_append]
    omega

theorem padLevel_pure {n : Nat} {tree : Bytes} (hn : 1 ≤ n)
    (hroom : 32 * (2 * ((n + 1) / 2)) ≤ tree.length) :
    ∃ tree', padLevel n tree = pure tree' ∧ tree'.length = tree.length := by
  rw [padLevel]
  split
  · have hlast : 32 * (n - 1) + 32 ≤ tree.length := by omega
    have hfit : 32 * n + (slice tree (32 * (n - 1)) 32).length ≤ tree.length := by
      rw [length_slice hlast]
      omega
    rw [peek_of_fits hlast, pure_bind, poke_of_fits hfit]
    exact ⟨_, rfl, length_store hfit⟩
  · exact ⟨tree, rfl, rfl⟩

variable (sha256d : Bytes → Hash)

theorem hashPairs_pure {tree : Bytes} :
    ∀ {k : Nat}, 64 * k ≤ tree.length →
      ∃ tree', hashPairs sha256d k tree = pure tree' ∧ tree'.length = tree.length := by
  intro k
  induction k with
  | zero => exact fun _ => ⟨tree, rfl, rfl⟩
  | succ k ih =>
      intro hroom
      obtain ⟨tree₁, hrun, hlen⟩ := ih (by omega)
      have hpair : 32 * (2 * k) + 64 ≤ tree₁.length := by omega
      have hfit : ∀ h : Hash, 32 * k + h.toList.length ≤ tree₁.length := by
        intro h
        rw [Vector.length_toList]
        omega
      rw [hashPairs] at hrun
      rw [hashPairs, List.range_succ, List.foldlM_append, hrun, pure_bind, List.foldlM_cons,
        peek_of_fits hpair, pure_bind, poke_of_fits (hfit _), pure_bind, List.foldlM_nil]
      exact ⟨_, rfl, (length_store (hfit _)).trans hlen⟩

/-- The fold ends in the array, and more fuel makes no difference. -/
theorem foldTree_pure {n : Nat} {tree : Bytes} (hn : 1 ≤ n)
    (hroom : 32 * (2 * ((n + 1) / 2)) ≤ tree.length) :
    ∃ tree', (∀ fuel, n ≤ fuel → foldTree sha256d fuel n tree = pure tree') ∧
      tree'.length = tree.length := by
  induction n using Nat.strong_induction_on generalizing tree with
  | h n ih =>
      by_cases hmore : n > 1
      · obtain ⟨padded, hpad, hpadLen⟩ := padLevel_pure hn hroom
        have hpairs : 64 * ((n + 1) / 2) ≤ padded.length := by omega
        obtain ⟨hashed, hhash, hhashLen⟩ := hashPairs_pure sha256d hpairs
        have hroom' : 32 * (2 * (((n + 1) / 2 + 1) / 2)) ≤ hashed.length := by omega
        obtain ⟨tree', hrest, hlen⟩ := ih ((n + 1) / 2) (by omega) (by omega) hroom'
        refine ⟨tree', fun fuel hfuel => ?_, by omega⟩
        obtain ⟨fuel, rfl⟩ : ∃ k, fuel = k + 1 := ⟨fuel - 1, by omega⟩
        rw [foldTree, if_pos hmore, hpad, pure_bind, hhash, pure_bind]
        exact hrest fuel (by omega)
      · refine ⟨tree, fun fuel hfuel => ?_, rfl⟩
        obtain ⟨fuel, rfl⟩ : ∃ k, fuel = k + 1 := ⟨fuel - 1, by omega⟩
        rw [foldTree, if_neg hmore]

/-- What a fold of `n` nodes is for. -/
def FoldsTo (sha256d : Bytes → Hash) (fold : Nat → Nat → Bytes → GbtM Bytes) (n : Nat)
    (tree : Bytes) : Prop :=
  ∃ tree', (∀ fuel, n ≤ fuel → fold fuel n tree = pure tree') ∧ tree'.length = tree.length ∧
    treeRoot (pairHash sha256d) ((List.range n).map (node tree)) = some (node tree' 0)

theorem foldTree_foldsTo {n : Nat} {tree : Bytes} (hn : 1 ≤ n)
    (hroom : 32 * (2 * ((n + 1) / 2)) ≤ tree.length) :
    FoldsTo sha256d (foldTree sha256d) n tree := by
  obtain ⟨tree', hrun, hlen⟩ := foldTree_pure sha256d hn hroom
  have hend : foldTree sha256d n n tree sampleStart = .ok tree' sampleStart := by
    rw [hrun n (Nat.le_refl n)]
    rfl
  exact ⟨tree', hrun, hlen, foldTree_ok hn (Nat.le_refl n) hend⟩

/-- Both folds, over the arrays that the function allocates for them. -/
theorem folds_compute_root (sha256d : Bytes → Hash) (t : Nat) (merkleTree wtree : Bytes)
    (hmerkleTree : merkleTree.length = 32 * (2 * ((t + 2) / 2)))
    (hwtree : wtree.length = 32 * (t + 2)) :
    FoldsTo sha256d (foldMerkleTree sha256d) (1 + t) merkleTree ∧
      FoldsTo sha256d (foldTree sha256d) (t + 1) wtree := by
  refine ⟨?_, foldTree_foldsTo sha256d (by omega) (by omega)⟩
  have hroom : 32 * (2 * ((1 + t + 1) / 2)) ≤ merkleTree.length := by omega
  obtain ⟨tree', hrun, hrest⟩ := foldTree_foldsTo sha256d (Nat.le_add_right 1 t) hroom
  exact ⟨tree', fun fuel hfuel => (foldMerkleTree_eq sha256d fuel _ _).trans (hrun fuel hfuel),
    hrest⟩

/-- Three leaves, so that a level has to be padded. -/
theorem folds_compute_root_three :
    FoldsTo sampleHash (foldMerkleTree sampleHash) 3 (List.replicate 128 7) ∧
      FoldsTo sampleHash (foldTree sampleHash) 3 (List.replicate 128 7) :=
  folds_compute_root sampleHash 2 (List.replicate 128 7) (List.replicate 128 7)
    List.length_replicate List.length_replicate

end Gbt

end AlphaMiner
