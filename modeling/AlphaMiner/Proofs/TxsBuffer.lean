import AlphaMiner.Proofs.GbtFaults
import AlphaMiner.Proofs.Varint

/-!
# The buffer of the transactions

`work->txs` is allocated for the count, the coinbase and the data of the
transactions, half the characters of each string rounded down, and twice the
sum. The strings are copied with all their characters. Where a string is decoded
before it is copied the two agree, since what decodes has an even length; under
segwit it is the id that is decoded, and a string of odd length is copied with
one character more than it was counted for.

The copying stops at the first transaction whose leaf is rejected, so that a
string behind it is counted and not copied. `copiedLength` against what was counted
is the condition on the copying. The sizes themselves are of type `int`: the sum of
the data wraps around, and an allocation whose size overflows or is negative gives
no block. `merkleRoot_faults` says that nothing else the stage does leaves a buffer.
-/

namespace AlphaMiner

open Lib

namespace Gbt

/-! ## What is copied -/

def txLength (tx : Json) : Nat := ((txHex tx).getD []).length

/-- The data of the transactions, in bytes. -/
def txTotal (txa : List Json) : Nat := (txa.map fun tx => txLength tx / 2).sum

/-- What `tx_size` comes to. -/
def txSizeOf (txa : List Json) : Int := (txTotal txa : Int).bmod (2 ^ 32)

/-- The check on the leaf of a transaction: under segwit on its id, and on its data
otherwise. -/
def leafAccepted (segwit : Bool) (tx : Json) : Bool :=
  if segwit then hexFits (jsonStringValue (jsonObjectGet (some tx) "txid")) 32
  else hexFits (txHex tx) (txLength tx / 2)

/-- The characters that are copied, before a leaf is rejected. -/
def copiedLength (segwit : Bool) (txa : List Json) : Nat :=
  ((txa.takeWhile (leafAccepted segwit)).map txLength).sum

/-- The data is not copied, or has been counted. -/
def CopyFits (val : Option Json) (txa : List Json) (txSize : Int) : Prop :=
  mutableHas val "submit/coinbase" = true ∨ (copiedLength (segwit val) txa : Int) ≤ 2 * txSize

/-- The bytes of `work->txs`. -/
def txsBytes (txa : List Json) (txSize : Int) (size : Nat) : Int :=
  2 * ((varintEncode (UInt64.ofNat (1 + txa.length))).length + size + txSize) + 1

/-- The bytes of `merkle_tree`. -/
def treeBytes (txa : List Json) : Nat := 32 * (2 * ((txa.length + 2) / 2))

/-- Both blocks have a size that is an `int`, and the data has not turned negative. -/
structure SizesFit (txa : List Json) (txSize : Int) (size : Nat) : Prop where
  counted : 0 ≤ txSize
  txs : txsBytes txa txSize size < 2 ^ 31
  tree : treeBytes txa < 2 ^ 31

def templateHeight (val : Option Json) : Int := ((integerOf val "height").getD 0).bmod (2 ^ 32)

/-- The blocks that a template asks for are there, and what is copied fits. -/
structure TxsFit (cfg : GbtConfig) (val : Option Json) (txa : List Json) : Prop where
  sizes : SizesFit txa (txSizeOf txa) (coinbaseSize cfg val (templateHeight val))
  copy : CopyFits val txa (txSizeOf txa)

theorem copiedLength_cons (segwit : Bool) (tx : Json) (txa : List Json) :
    copiedLength segwit (tx :: txa) =
      if leafAccepted segwit tx then txLength tx + copiedLength segwit txa else 0 := by
  rw [copiedLength, List.takeWhile_cons]
  split
  · rw [List.map_cons, List.sum_cons, copiedLength]
  · rfl

/-- Data that decodes has an even length. -/
theorem copiedLength_not_segwit (txa : List Json) : copiedLength false txa ≤ 2 * txTotal txa := by
  induction txa with
  | nil => exact Nat.zero_le _
  | cons tx txa ih =>
      rw [copiedLength_cons, txTotal, List.map_cons, List.sum_cons]
      rw [txTotal] at ih
      split
      · next haccept =>
          have heven : txLength tx = 2 * (txLength tx / 2) := by
            rw [leafAccepted, if_neg Bool.false_ne_true] at haccept
            cases hhex : txHex tx with
            | none =>
                rw [hhex] at haccept
                cases haccept
            | some hex =>
                rw [hhex] at haccept
                obtain ⟨p, hp, -⟩ := unhex_of_hex2bin haccept
                have hlen := length_of_unhex hp
                rw [txLength, hhex, Option.getD_some]
                omega
          omega
      · exact Nat.zero_le _

/-- Without segwit the sizes are all there is to it. -/
theorem txsFit_of_not_segwit {cfg : GbtConfig} {val : Option Json} {txa : List Json}
    (h : segwit val = false) (hlt : txTotal txa < 2 ^ 31)
    (hsizes : SizesFit txa (txTotal txa) (coinbaseSize cfg val (templateHeight val))) :
    TxsFit cfg val txa := by
  have hsize : txSizeOf txa = txTotal txa := Int.bmod_eq_of_le (by omega) (by omega)
  refine ⟨hsize ▸ hsizes, .inr ?_⟩
  have hcopied := copiedLength_not_segwit txa
  rw [h, hsize]
  omega

/-- One round of the loop over the sizes, as it stands in `txSizes`. -/
def sizeRound (size : Int) (tx : Json) : GbtM Int :=
  match txHex tx with
  | some hex => pure ((size + (hex.length / 2 : Nat)).bmod (2 ^ 32))
  | none => throw (.out "JSON invalid transactions")

/-- Wrapping around each time comes to the same as doing so at the end. -/
theorem sizeRounds {txa : List Json} (h : ∀ tx ∈ txa, (txHex tx).isSome = true) (size : Int) :
    txa.foldlM sizeRound (size.bmod (2 ^ 32)) = pure ((size + txTotal txa).bmod (2 ^ 32)) := by
  induction txa generalizing size with
  | nil => rw [List.foldlM_nil, txTotal, List.map_nil, List.sum_nil, Int.natCast_zero, Int.add_zero]
  | cons tx txa ih =>
      obtain ⟨hex, hhex⟩ := Option.isSome_iff_exists.1 (h tx List.mem_cons_self)
      have htotal : txTotal (tx :: txa) = hex.length / 2 + txTotal txa := by
        rw [txTotal, txTotal, List.map_cons, List.sum_cons, txLength, hhex, Option.getD_some]
      rw [List.foldlM_cons, sizeRound, hhex]
      simp only
      rw [pure_bind, Int.bmod_add_bmod, ih fun tx htx => h tx (List.mem_cons_of_mem _ htx), htotal,
        Int.natCast_add, Int.add_assoc]

theorem txSizes_eq {txa : List Json} (h : ∀ tx ∈ txa, (txHex tx).isSome = true) :
    txSizes txa = pure (txSizeOf txa) := by
  have hrounds := sizeRounds h 0
  rw [Int.zero_add] at hrounds
  exact hrounds

/-! ## The loop -/

section

variable {sha256d : Bytes → Hash} {cfg : GbtConfig} {val : Option Json}

theorem merkleLeaf_cases (sha256d : Bytes → Hash) (heap : Nat → UInt8) (segwit : Bool)
    {old : Bytes} (hold : old.length = 32) (tx : Json) :
    (leafAccepted segwit tx = true ∧
      ∃ leaf, merkleLeaf sha256d heap segwit old tx = pure leaf ∧ leaf.length = 32) ∨
    leafAccepted segwit tx = false ∧
      ∃ log, merkleLeaf sha256d heap segwit old tx = throw (.out log) := by
  rw [leafAccepted, merkleLeaf]
  cases segwit with
  | true =>
      simp only [if_true]
      cases htxid : jsonStringValue (jsonObjectGet (some tx) "txid") with
      | none => exact .inr ⟨rfl, _, rfl⟩
      | some txid =>
          have hlen : (hex2bin old (some txid) 32).2.length = old.length :=
            length_hex2bin (Nat.le_of_eq hold.symm)
          rw [← hex2bin_fst old]
          simp only
          rcases hhex : hex2bin old (some txid) 32 with ⟨_ | _, out⟩
          · exact .inr ⟨rfl, _, rfl⟩
          · rw [hhex] at hlen
            refine .inl ⟨rfl, _, rfl, ?_⟩
            rw [memrev, List.length_reverse, hlen, hold]
  | false =>
      simp only [if_neg Bool.false_ne_true]
      cases hhex : txHex tx with
      | none => exact .inr ⟨rfl, _, rfl⟩
      | some hex =>
          have hlen : txLength tx = hex.length := by
            rw [txLength, hhex, Option.getD_some]
          rw [hlen, ← hex2bin_fst (malloc heap (hex.length / 2))]
          simp only
          rcases hbin : hex2bin (malloc heap (hex.length / 2)) (some hex) (hex.length / 2)
            with ⟨_ | _, out⟩
          · exact .inr ⟨rfl, _, rfl⟩
          · exact .inl ⟨rfl, _, rfl, Vector.length_toList⟩

theorem appendTx_fits {capacity : Nat} {txs hex : Bytes} {s : GbtState}
    (htxs : s.work.txs = some txs) (hfit : txs.length + hex.length + 1 ≤ capacity) :
    appendTx capacity (some hex) s =
      .ok () { s with work := { s.work with txs := some (txs ++ hex) } } := by
  rw [appendTx]
  refine (bind_of_ok rfl).trans ?_
  rw [htxs]
  simp only [if_pos hfit]
  rfl

theorem appendTx_overruns {capacity : Nat} {txs hex : Bytes} {s : GbtState}
    (htxs : s.work.txs = some txs) (hfit : ¬txs.length + hex.length + 1 ≤ capacity) :
    StopsWith .fault (appendTx capacity (some hex)) s := by
  refine ⟨s, ?_⟩
  rw [appendTx]
  refine (bind_of_ok rfl).trans ?_
  rw [htxs]
  simp only [if_neg hfit]
  rfl

theorem leafRound_cases (sha256d : Bytes → Hash) (cfg : GbtConfig) (val : Option Json)
    (capacity : Nat) {tree : Bytes} {i : Nat} (hroom : 32 * (1 + i) + 32 ≤ tree.length)
    (tx : Json) :
    (leafAccepted (segwit val) tx = true ∧ ∃ tree', tree'.length = tree.length ∧
      leafRound sha256d cfg val capacity tree (tx, i) =
        ((if mutableHas val "submit/coinbase" then pure () else appendTx capacity (txHex tx)) >>=
          fun _ => pure tree')) ∨
    leafAccepted (segwit val) tx = false ∧
      ∃ log, leafRound sha256d cfg val capacity tree (tx, i) = throw (.out log) := by
  rw [leafRound, peek_of_fits hroom, pure_bind]
  obtain ⟨haccept, leaf, hleaf, hlen⟩ | ⟨hreject, log, hout⟩ :=
    merkleLeaf_cases sha256d cfg.heap (segwit val) (length_slice hroom) tx
  · have hfit : 32 * (1 + i) + leaf.length ≤ tree.length := by omega
    rw [hleaf, pure_bind, poke_of_fits hfit, pure_bind]
    refine .inl ⟨haccept, _, length_store hfit, ?_⟩
    cases mutableHas val "submit/coinbase" with
    | true => rfl
    | false => rfl
  · rw [hout, throw_bind]
    exact .inr ⟨hreject, log, rfl⟩

/-- The loop overruns the buffer just where the data it copies is more than there is
room for, and it does nothing else wrong. -/
theorem leaves_faults {capacity k : Nat} {txa : List Json} {tree txs : Bytes} {s : GbtState}
    (hdata : ∀ tx ∈ txa, (txHex tx).isSome = true) (htxs : s.work.txs = some txs)
    (hbase : txs.length + 1 ≤ capacity) (hroom : 32 * (1 + k + txa.length) ≤ tree.length) :
    StopsWith .fault ((txa.zipIdx k).foldlM (leafRound sha256d cfg val capacity) tree) s ↔
      mutableHas val "submit/coinbase" = false ∧
        capacity < txs.length + copiedLength (segwit val) txa + 1 := by
  induction txa generalizing k tree txs s with
  | nil =>
      rw [copiedLength]
      exact iff_of_false stopsWith_pure fun h => by simp at h; omega
  | cons tx txa ih =>
      obtain ⟨hex, hhex⟩ := Option.isSome_iff_exists.1 (hdata tx List.mem_cons_self)
      have hlen : txLength tx = hex.length := by
        rw [txLength, hhex, Option.getD_some]
      have hrest : ∀ tx ∈ txa, (txHex tx).isSome = true :=
        fun tx htx => hdata tx (List.mem_cons_of_mem _ htx)
      rw [List.length_cons] at hroom
      rw [List.zipIdx_cons, List.foldlM_cons, stopsWith_bind, copiedLength_cons]
      have hroom₁ : 32 * (1 + k) + 32 ≤ tree.length := by omega
      obtain ⟨haccept, tree', hlen', hround⟩ | ⟨hreject, log, hout⟩ :=
        leafRound_cases sha256d cfg val capacity hroom₁ tx
      · rw [hround, if_pos haccept, hlen, hhex]
        cases hmutable : mutableHas val "submit/coinbase" with
        | true =>
            refine iff_of_false ?_ fun h => nomatch h.1
            rw [if_pos rfl, pure_bind]
            rintro (hstop | ⟨_, t, hok, hstop⟩)
            · exact stopsWith_pure hstop
            · obtain ⟨rfl, rfl⟩ := pure_ok.1 hok
              have hmutable' := ((ih hrest htxs hbase (by omega)).1 hstop).1
              rw [hmutable] at hmutable'
              cases hmutable'
        | false =>
            rw [if_neg Bool.false_ne_true]
            by_cases hfit : txs.length + hex.length + 1 ≤ capacity
            · have hrun : (appendTx capacity (some hex) >>= fun _ => pure tree') s =
                  .ok tree' { s with work := { s.work with txs := some (txs ++ hex) } } :=
                bind_of_ok (appendTx_fits htxs hfit)
              have hlong : (txs ++ hex).length = txs.length + hex.length := List.length_append
              have hnext := @ih (k + 1) tree' (txs ++ hex)
                { s with work := { s.work with txs := some (txs ++ hex) } } hrest rfl (by omega)
                (by omega)
              rw [hmutable, hlong, Nat.add_assoc txs.length] at hnext
              rw [← hnext]
              constructor
              · rintro (⟨_, hstop⟩ | ⟨_, t, hok, hstop⟩)
                · rw [hrun] at hstop
                  cases hstop
                · rw [hrun] at hok
                  cases hok
                  exact hstop
              · exact fun hstop => .inr ⟨_, _, hrun, hstop⟩
            · refine iff_of_true (.inl (stopsWith_bind.2 (.inl ?_))) ⟨rfl, by omega⟩
              exact appendTx_overruns htxs hfit
      · rw [hout, if_neg (by rw [hreject]; exact Bool.false_ne_true)]
        refine iff_of_false ?_ fun h => by omega
        rintro (hstop | ⟨_, _, hok, -⟩)
        · exact out_no_fault hstop
        · exact throw_ok hok

theorem leaves_length {capacity k : Nat} {txa : List Json} {tree tree' : Bytes} {s s' : GbtState}
    (hroom : 32 * (1 + k + txa.length) ≤ tree.length)
    (h : (txa.zipIdx k).foldlM (leafRound sha256d cfg val capacity) tree s = .ok tree' s') :
    tree'.length = tree.length := by
  induction txa generalizing k tree s with
  | nil => rw [(pure_ok.1 h).1]
  | cons tx txa ih =>
      rw [List.length_cons] at hroom
      rw [List.zipIdx_cons, List.foldlM_cons] at h
      obtain ⟨tree₁, t, hround, hrest⟩ := bind_ok.1 h
      have hroom₁ : 32 * (1 + k) + 32 ≤ tree.length := by omega
      obtain ⟨-, tree₂, hlen, heq⟩ | ⟨-, log, hout⟩ :=
        leafRound_cases sha256d cfg val capacity hroom₁ tx
      · rw [heq] at hround
        obtain ⟨_, u, -, hpure⟩ := bind_ok.1 hround
        obtain rfl : tree₂ = tree₁ := (pure_ok.1 hpure).1
        rw [ih (by omega) hrest, hlen]
      · rw [hout] at hround
        exact absurd hround throw_ok

/-! ## The stage -/

/-- The folding of the leaves adds no fault. -/
theorem tree_faults {capacity : Nat} {txa : List Json} {tree txs : Bytes} {s : GbtState}
    (hdata : ∀ tx ∈ txa, (txHex tx).isSome = true) (htxs : s.work.txs = some txs)
    (hbase : txs.length + 1 ≤ capacity) (hroom : treeBytes txa ≤ tree.length) :
    StopsWith .fault (txa.zipIdx.foldlM (leafRound sha256d cfg val capacity) tree >>= fun tree =>
      foldMerkleTree sha256d (1 + txa.length) (1 + txa.length) tree >>= fun tree =>
        peek tree 0 32) s ↔
      mutableHas val "submit/coinbase" = false ∧
        capacity < txs.length + copiedLength (segwit val) txa + 1 := by
  rw [treeBytes] at hroom
  have hroom₀ : 32 * (1 + 0 + txa.length) ≤ tree.length := by omega
  rw [stopsWith_bind, leaves_faults hdata htxs hbase hroom₀]
  refine or_iff_left ?_
  rintro ⟨tree₁, t, hloop, hstop⟩
  have hlen := leaves_length hroom₀ hloop
  have hfold : 32 * (2 * ((1 + txa.length + 1) / 2)) ≤ tree₁.length := by omega
  obtain ⟨tree₂, hrun, hlen₂⟩ := foldTree_pure sha256d (Nat.le_add_right 1 _) hfold
  have hpeek : 0 + 32 ≤ tree₂.length := by omega
  rw [foldMerkleTree_eq, hrun _ (Nat.le_refl _), pure_bind, peek_of_fits hpeek] at hstop
  exact stopsWith_pure hstop

theorem mallocInt_of_fits {bytes : Int} (hpos : 0 ≤ bytes) (hlt : bytes < 2 ^ 31) :
    mallocInt bytes = pure bytes.toNat := if_pos ⟨hpos, hlt⟩

theorem mallocInt_of_large {bytes : Int} (h : 2 ^ 31 ≤ bytes) :
    mallocInt bytes = throw .fault := if_neg (by omega)

/-- What is written first, once there is a block for it. -/
def txsBegun (txa : List Json) (cbtx : Bytes) : Bytes :=
  bin2hex (varintEncode (UInt64.ofNat (1 + txa.length))) ++ bin2hex cbtx

theorem length_txsBegun (txa : List Json) (cbtx : Bytes) :
    (txsBegun txa cbtx).length =
      2 * ((varintEncode (UInt64.ofNat (1 + txa.length))).length + cbtx.length) := by
  rw [txsBegun, List.length_append, length_bin2hex, length_bin2hex, Nat.mul_add]

/-- With both blocks there, what is left of the stage is the loop and the folding. -/
theorem merkleRoot_of_sizes {txa : List Json} {txSize : Int} {size : Nat} {cbtx : Bytes}
    (hsizes : SizesFit txa txSize size) (hsize : size ≤ cbtx.length) (s : GbtState) :
    ∃ tree : Bytes, treeBytes txa ≤ tree.length ∧
      merkleRoot sha256d cfg val txa txSize cbtx size s =
        (txa.zipIdx.foldlM (leafRound sha256d cfg val (txsBytes txa txSize size).toNat) tree >>=
          fun tree => foldMerkleTree sha256d (1 + txa.length) (1 + txa.length) tree >>= fun tree =>
            peek tree 0 32)
          { s with work := { s.work with txs := some (txsBegun txa (slice cbtx 0 size)) } } := by
  obtain ⟨hcounted, htxs, htree⟩ := hsizes
  have hpeek : 0 + size ≤ cbtx.length := by omega
  have hbytes : txsBytes txa txSize size =
      2 * ((varintEncode (UInt64.ofNat (1 + txa.length))).length + size + txSize) + 1 := rfl
  have hbegin : 2 * ((varintEncode (UInt64.ofNat (1 + txa.length))).length +
      (slice cbtx 0 size).length) + 1 ≤ (txsBytes txa txSize size).toNat := by
    rw [length_slice hpeek]
    omega
  have hlen : (malloc cfg.heap (treeBytes txa)).length = treeBytes txa := by
    simp [malloc]
  have hfit : 0 + (sha256d (slice cbtx 0 size)).toList.length ≤
      (malloc cfg.heap (treeBytes txa)).length := by
    rw [hlen, Vector.length_toList, treeBytes]
    omega
  have hmalloc : mallocInt (32 * (2 * ((txa.length + 2) / 2) : Nat)) = pure (treeBytes txa) := by
    rw [mallocInt_of_fits (by omega) (by rw [treeBytes] at htree; omega), treeBytes]
    congr 1
  refine ⟨store (malloc cfg.heap (treeBytes txa)) 0 (sha256d (slice cbtx 0 size)).toList,
    Nat.le_of_eq ((length_store hfit).trans hlen).symm, ?_⟩
  unfold merkleRoot
  simp only
  rw [← hbytes, mallocInt_of_fits (by omega) htxs, pure_bind, peek_of_fits hpeek, pure_bind,
    beginTxs, if_pos hbegin, hmalloc, pure_bind, poke_of_fits hfit, pure_bind]
  exact bind_of_ok rfl

/-- Otherwise one of the blocks is not there, or does not hold what is written first. -/
theorem merkleRoot_of_not_sizes {txa : List Json} {txSize : Int} {size : Nat} {cbtx : Bytes}
    (hsizes : ¬SizesFit txa txSize size) (hsize : size ≤ cbtx.length) (s : GbtState) :
    StopsWith .fault (merkleRoot sha256d cfg val txa txSize cbtx size) s := by
  have hpeek : 0 + size ≤ cbtx.length := by omega
  have hbytes : txsBytes txa txSize size =
      2 * ((varintEncode (UInt64.ofNat (1 + txa.length))).length + size + txSize) + 1 := rfl
  unfold merkleRoot
  simp only
  rw [← hbytes]
  by_cases hmalloc : 0 ≤ txsBytes txa txSize size ∧ txsBytes txa txSize size < 2 ^ 31
  swap
  · rw [mallocInt, if_neg hmalloc, throw_bind]
    exact stopsWith_throw.2 rfl
  rw [mallocInt, if_pos hmalloc, pure_bind, peek_of_fits hpeek, pure_bind, beginTxs]
  by_cases hcounted : 0 ≤ txSize
  · have htree : mallocInt (32 * (2 * ((txa.length + 2) / 2) : Nat)) = throw .fault := by
      refine mallocInt_of_large ?_
      by_contra hsmall
      refine hsizes ⟨hcounted, hmalloc.2, ?_⟩
      rw [treeBytes]
      omega
    rw [if_pos (by rw [length_slice hpeek]; omega), htree]
    exact stopsWith_bind.2 (.inr ⟨(), _, rfl, stopsWith_throw.2 rfl⟩)
  · rw [if_neg (by rw [length_slice hpeek]; omega), throw_bind]
    exact stopsWith_throw.2 rfl

/-- The stage faults just where a block that it asks for is not there, or data is copied
that there is no room for. -/
theorem merkleRoot_faults {txa : List Json} {txSize : Int} {size : Nat} {cbtx : Bytes}
    {s : GbtState} (hdata : ∀ tx ∈ txa, (txHex tx).isSome = true) (hsize : size ≤ cbtx.length) :
    StopsWith .fault (merkleRoot sha256d cfg val txa txSize cbtx size) s ↔
      ¬(SizesFit txa txSize size ∧ CopyFits val txa txSize) := by
  by_cases hsizes : SizesFit txa txSize size
  swap
  · exact iff_of_true (merkleRoot_of_not_sizes hsizes hsize s) fun h => hsizes h.1
  obtain ⟨tree, hroom, hrun⟩ := @merkleRoot_of_sizes sha256d cfg val txa txSize size cbtx hsizes
    hsize s
  have hbase := length_txsBegun txa (slice cbtx 0 size)
  rw [length_slice (by omega)] at hbase
  have hbytes : txsBytes txa txSize size =
      2 * ((varintEncode (UInt64.ofNat (1 + txa.length))).length + size + txSize) + 1 := rfl
  have hcounted := hsizes.counted
  rw [StopsWith, hrun]
  refine (tree_faults hdata rfl (by omega) hroom).trans ?_
  rw [and_iff_right hsizes, CopyFits, not_or, Bool.not_eq_true]
  exact and_congr_right fun _ => by omega

/-- The string and its terminator are in a block of this size. -/
def TxsInside (bytes : Int) (s : GbtState) : Prop :=
  ∀ txs, s.work.txs = some txs → (txs.length : Int) + 1 ≤ bytes

theorem inside_appendTx (capacity : Nat) (hex : Option Bytes) :
    Preserves (TxsInside capacity) (appendTx capacity hex) := by
  intro s hs
  cases hrun : appendTx capacity hex s with
  | error e s' =>
      obtain rfl := appendTx_stop hrun
      exact hs
  | ok u s' =>
      obtain ⟨txs, hex', htxs, rfl, rfl⟩ := appendTx_ok hrun
      by_cases hfit : txs.length + hex'.length + 1 ≤ capacity
      · rintro _ ⟨⟩
        rw [List.length_append]
        omega
      · obtain ⟨u, hstop⟩ := appendTx_overruns htxs hfit
        rw [hrun] at hstop
        cases hstop

theorem inside_merkleRoot {txa : List Json} {txSize : Int} {size : Nat} {cbtx : Bytes}
    {s : GbtState} (hsizes : SizesFit txa txSize size) (hsize : size ≤ cbtx.length) :
    TxsInside (txsBytes txa txSize size)
      (finalState (merkleRoot sha256d cfg val txa txSize cbtx size s)) := by
  obtain ⟨tree, -, hrun⟩ := @merkleRoot_of_sizes sha256d cfg val txa txSize size cbtx hsizes hsize s
  have hbase := length_txsBegun txa (slice cbtx 0 size)
  rw [length_slice (by omega)] at hbase
  have hbytes : txsBytes txa txSize size =
      2 * ((varintEncode (UInt64.ofNat (1 + txa.length))).length + size + txSize) + 1 := rfl
  have hcounted := hsizes.counted
  have hcapacity : ((txsBytes txa txSize size).toNat : Int) = txsBytes txa txSize size :=
    Int.toNat_of_nonneg (by omega)
  have hround : ∀ tree tx, Preserves (TxsInside (txsBytes txa txSize size).toNat)
      (leafRound sha256d cfg val (txsBytes txa txSize size).toNat tree tx) := by
    rintro tree ⟨tx, i⟩
    refine ((stateless_peek _ _ _).preserves _).bind fun old =>
      ((stateless_merkleLeaf _ _ _ _ _).preserves _).bind fun leaf =>
        ((stateless_poke _ _ _).preserves _).bind fun tree => ?_
    split
    · exact (inside_appendTx _ _).bind fun _ => .pure _
    · exact .pure _
  rw [hrun, ← hcapacity]
  refine (Preserves.foldlM hround _ _).bind (fun tree => ((stateless_foldMerkleTree _ _ _ _).bind
    fun tree => stateless_peek _ _ _).preserves _) _ ?_
  rintro _ ⟨⟩
  omega

/-! ## From the template to its transactions -/

/-- All that is checked in front of the transactions is in order, and the coinbase
comes to no fault. -/
structure ReachesTransactions (cfg : GbtConfig) (val : Option Json) (txa : List Json) : Prop where
  fields : FieldsAccepted val
  transactions : jsonObjectGet val "transactions" = some (.array txa)
  accepted : CoinbaseAccepted cfg val txa
  safe : ∃ height, integerOf val "height" = some height ∧
    CoinbaseSafe cfg val (height.bmod (2 ^ 32))

theorem fields_state {s t : GbtState} {f : Fields} (h : fields cfg val s = .ok f t) :
    ∃ height, integerOf val "height" = some height ∧ t = withHeight height s := by
  cases hheight : integerOf val "height" with
  | none =>
      rw [fields_none hheight] at h
      cases h
  | some height =>
      have hfinal := fields_final cfg hheight s
      rw [h] at hfinal
      exact ⟨height, rfl, hfinal⟩

theorem fields_txSize {s t : GbtState} {f : Fields} (h : fields cfg val s = .ok f t) :
    (∀ tx ∈ f.txa, (txHex tx).isSome = true) ∧ f.txSize = txSizeOf f.txa := by
  rw [fields] at h
  obtain ⟨_, _, -, h⟩ := bind_ok.mp h
  obtain ⟨_, _, -, h⟩ := bind_ok.mp h
  obtain ⟨_, _, -, h⟩ := bind_ok.mp h
  obtain ⟨_, _, -, h⟩ := bind_ok.mp h
  obtain ⟨_, _, -, h⟩ := bind_ok.mp h
  obtain ⟨_, _, -, h⟩ := bind_ok.mp h
  obtain ⟨_, _, -, h⟩ := bind_ok.mp h
  obtain ⟨txa, _, -, h⟩ := bind_ok.mp h
  obtain ⟨n, _, hsizes, h⟩ := bind_ok.mp h
  obtain ⟨rfl, -⟩ := pure_ok.mp h
  have hdata := txSizes_ok hsizes
  rw [txSizes_eq hdata] at hsizes
  exact ⟨hdata, (pure_ok.1 hsizes).1.symm⟩

theorem withHeight_height {height : Int} (h : integerOf val "height" = some height)
    (s : GbtState) : (withHeight height s).work.height = templateHeight val := by
  rw [templateHeight, h]
  rfl

theorem withHeight_lt (height : Int) (s : GbtState) :
    (withHeight height s).work.height < 2 ^ 31 :=
  Int.bmod_lt (by decide)

/-- A run that comes to the transactions, and what it brings there. -/
theorem reaches_of_run (hpk : ScriptThere cfg) {s t t' : GbtState} {f : Fields} {cbtx : Bytes}
    {size : Nat} (hfields : fields cfg val s = .ok f t)
    (hcoinbase : coinbase sha256d cfg val f.txa t = .ok (cbtx, size) t') :
    ReachesTransactions cfg val f.txa ∧ size = coinbaseSize cfg val (templateHeight val) ∧
      size ≤ cbtx.length := by
  obtain ⟨height, hheight, rfl⟩ := fields_state hfields
  have hlt := withHeight_lt height s
  obtain ⟨haccepted, htxa⟩ := fields_accepted hfields
  have hroom := coinbase_room hpk hlt hcoinbase
  rw [withHeight_height hheight] at hroom
  refine ⟨⟨haccepted, htxa, coinbase_accepted hcoinbase, height, hheight, ?_⟩, hroom⟩
  by_contra hnotSafe
  have hstops : StopsWith .fault (coinbase sha256d cfg val f.txa) (withHeight height s) :=
    (coinbase_faults hpk hlt).2 hnotSafe
  obtain ⟨u, hstop⟩ := hstops
  rw [hcoinbase] at hstop
  cases hstop

theorem run_of_reaches (sha256d : Bytes → Hash) (hpk : ScriptThere cfg) {txa : List Json}
    (h : ReachesTransactions cfg val txa) (s : GbtState) :
    ∃ f t cbtx size t', fields cfg val s = .ok f t ∧ f.txa = txa ∧
      coinbase sha256d cfg val f.txa t = .ok (cbtx, size) t' := by
  obtain ⟨height, hheight, hsafe⟩ := h.safe
  have hsome : (integerOf val "height").isSome = true := by
    rw [hheight]
    rfl
  cases hfields : fields cfg val s with
  | error e t => exact (stops_fields (E := fun _ => False) hsome h.fields s e t hfields).elim
  | ok f t =>
      have htxa : f.txa = txa := by
        have hget := (fields_accepted hfields).2.symm.trans h.transactions
        cases hget
        rfl
      obtain ⟨height', hheight', rfl⟩ := fields_state hfields
      cases hheight.symm.trans hheight'
      have haccepted := h.accepted
      rw [← htxa] at haccepted
      have hfaults : Stops (· = .fault) (coinbase sha256d cfg val f.txa) :=
        faults_coinbase haccepted
      obtain ⟨⟨cbtx, size⟩, t', hrun⟩ := hfaults.reaches
        (mt (coinbase_faults hpk (withHeight_lt height s)).1 (not_not.2 hsafe))
      exact ⟨f, _, cbtx, size, t', rfl, htxa, hrun⟩

/-! ## The block -/

/-- The body of a block as `submitblock` takes it: the count of its transactions, the
coinbase, and the data of the others where the node does not have it. -/
def blockBody (val : Option Json) (txa : List Json) (cbtx : Bytes) : Bytes :=
  bin2hex (compactSize (UInt64.ofNat (1 + txa.length)).toNat) ++ bin2hex cbtx ++
    if mutableHas val "submit/coinbase" then []
    else txa.flatMap fun tx => (txHex tx).getD []

theorem blockTransactions_eq (val : Option Json) (txa : List Json) (cbtx : Bytes) :
    blockTransactions val txa cbtx = blockBody val txa cbtx := by
  rw [blockTransactions, blockBody, varintEncode_eq]
  congr 1
  unfold copiedTx
  split
  · exact List.flatMap_eq_nil_iff.2 fun _ _ => rfl
  · rfl

/-- Behind the transactions nothing writes them. -/
theorem keeps_txs (f : Fields) (root : Bytes) :
    Keeps (fun s => s.work.txs) (assembleHeader sha256d f root >>= fun _ =>
      readTarget cfg val >>= fun _ => readWorkid val >>= fun _ => longPolling cfg val) := by
  refine Keeps.bind ?_ fun _ => (keeps_readTarget (fun _ _ => rfl) cfg val).bind fun _ =>
    (keeps_readWorkid (fun _ _ => rfl) val).bind fun _ =>
      keeps_longPolling (fun _ _ => rfl) cfg val
  rw [assembleHeader]
  split
  · exact Keeps.throw _
  · exact Keeps.modify fun _ => rfl

/-- Wherever a run comes to the transactions, the stage does not leave its buffers,
what it has written ends inside the block that it allocated, and if the function
returns true the record holds the body of the block. -/
def TxsSound (sha256d : Bytes → Hash) (cfg : GbtConfig) (val : Option Json) (s : GbtState) :
    Prop :=
  ∀ f t cbtx size t', fields cfg val s = .ok f t →
    coinbase sha256d cfg val f.txa t = .ok (cbtx, size) t' →
    ¬StopsWith .fault (merkleRoot sha256d cfg val f.txa f.txSize cbtx size) t' ∧
    TxsInside (txsBytes f.txa f.txSize size)
      (finalState (merkleRoot sha256d cfg val f.txa f.txSize cbtx size t')) ∧
    ∀ s', gbtWorkDecode sha256d cfg val s = .ok () s' →
      s'.work.txs = some (blockBody val f.txa (slice cbtx 0 size))

/-- The buffer is kept to just where its size is an `int` and the data that is copied has
been counted. -/
theorem txs_sound_iff (sha256d : Bytes → Hash) (val : Option Json) (s : GbtState)
    (hpk : ScriptThere cfg) :
    TxsSound sha256d cfg val s ↔
      ∀ txa, ReachesTransactions cfg val txa → TxsFit cfg val txa := by
  constructor
  · intro hsound txa hreach
    obtain ⟨f, t, cbtx, size, t', hfields, rfl, hcoinbase⟩ := run_of_reaches sha256d hpk hreach s
    obtain ⟨hnot, -⟩ := hsound f t cbtx size t' hfields hcoinbase
    obtain ⟨hdata, htxSize⟩ := fields_txSize hfields
    obtain ⟨-, hsize, hroom⟩ := reaches_of_run hpk hfields hcoinbase
    rw [merkleRoot_faults hdata hroom, htxSize, hsize, not_not] at hnot
    exact ⟨hnot.1, hnot.2⟩
  · intro hfit f t cbtx size t' hfields hcoinbase
    obtain ⟨hdata, htxSize⟩ := fields_txSize hfields
    obtain ⟨hreach, hsize, hroom⟩ := reaches_of_run hpk hfields hcoinbase
    obtain ⟨hsizes, hcopy⟩ := hfit f.txa hreach
    rw [← htxSize, ← hsize] at hsizes
    rw [← htxSize] at hcopy
    refine ⟨?_, inside_merkleRoot hsizes hroom, fun s' h => ?_⟩
    · rw [merkleRoot_faults hdata hroom]
      exact not_not.2 ⟨hsizes, hcopy⟩
    · rw [gbtWorkDecode] at h
      rw [bind_of_ok hfields, bind_of_ok hcoinbase] at h
      obtain ⟨root, t₃, hroot, hrest⟩ := bind_ok.1 h
      obtain ⟨_, -, -, -, htxs⟩ := merkleRoot_ok hroot
      rw [← blockTransactions_eq, ← htxs]
      exact keeps_txs f root t₃ () s' hrest

end

theorem txs_sound_iff_sample :
    TxsSound sampleHash sampleConfig (some sampleTemplate) sampleStart ↔
      ∀ txa, ReachesTransactions sampleConfig (some sampleTemplate) txa →
        TxsFit sampleConfig (some sampleTemplate) txa :=
  txs_sound_iff sampleHash (some sampleTemplate) sampleStart ⟨by decide, by decide⟩

/-- The sample under segwit, with one transaction whose data is one digit. -/
def oddTemplate : Json := .object
  [("height", .integer 100), ("version", .integer 1),
    ("previousblockhash", .string (List.replicate 64 49)),
    ("rx_epoch_duration", .integer 604800), ("curtime", .integer 1708560000),
    ("bits", .string (List.replicate 8 49)), ("rules", .array [.string (ascii "segwit")]),
    ("transactions", .array [.object
      [("data", .string [49]), ("txid", .string (List.replicate 64 49))]]),
    ("coinbasetxn", .object [("data", .string (List.replicate 120 49))]),
    ("target", .string (List.replicate 64 102))]

/-- The stages up to the transactions, as one run. -/
def runTxs (val : Option Json) : GbtM Bytes := do
  let f ← fields sampleConfig val
  let r ← coinbase sampleHash sampleConfig val f.txa
  merkleRoot sampleHash sampleConfig val f.txa f.txSize r.1 r.2

theorem txs_sound_fails :
    ¬∀ (cfg : GbtConfig) (val : Option Json) (s : GbtState), ScriptThere cfg →
      TxsSound sampleHash cfg val s := by
  intro hclaim
  have hstop : stoppedBy (runTxs (some oddTemplate) sampleStart) = some .fault := by
    decide +kernel
  have hreaches : reachedEnd ((fields sampleConfig (some oddTemplate) >>= fun f =>
      coinbase sampleHash sampleConfig (some oddTemplate) f.txa) sampleStart) = true := by
    decide +kernel
  cases hrun : (fields sampleConfig (some oddTemplate) >>= fun f =>
      coinbase sampleHash sampleConfig (some oddTemplate) f.txa) sampleStart with
  | error e t =>
      rw [hrun] at hreaches
      cases hreaches
  | ok r t' =>
      obtain ⟨f, t, hfields, hcoinbase⟩ := bind_ok.1 hrun
      have herror := error_of_stoppedBy hstop
      rw [runTxs, bind_of_ok hfields, bind_of_ok hcoinbase] at herror
      exact (hclaim sampleConfig (some oddTemplate) sampleStart ⟨by decide, by decide⟩ f t r.1 r.2
        t' hfields hcoinbase).1 ⟨_, herror⟩

end Gbt

end AlphaMiner
