import AlphaMiner.Lib.Transaction
import AlphaMiner.Proofs.CoinbaseAppend

/-!
# The coinbase is a transaction

The miner's own coinbase is written field by field into 256 bytes, at offsets
that the code keeps by hand, and is then lengthened in the middle. `Filled` is
how far the buffer has come: what its front is. Only the script of the input is
written out of order, because its length is known last.

With an empty script the fields add up to the bytes of a transaction, and so
they do with the script that the append step makes of it. A reader of the format
then gets that transaction.
-/

namespace AlphaMiner

open Lib

namespace Gbt

/-! ## A buffer that is filled from the front -/

structure Filled (cbtx : Bytes) (size : Nat) (bs : Bytes) : Prop where
  length : cbtx.length = 256
  count : bs.length = size
  front : cbtx.take size = bs

theorem Filled.start (heap : Nat → UInt8) : Filled (malloc heap 256) 0 [] := by
  refine ⟨?_, rfl, rfl⟩
  simp [malloc]

theorem take_store {buf bs : Bytes} {off : Nat} (h : off ≤ buf.length) :
    (store buf off bs).take (off + bs.length) = buf.take off ++ bs := by
  have hlen : (buf.take off ++ bs).length = off + bs.length := by
    rw [List.length_append, List.length_take]
    omega
  rw [store, ← hlen, List.take_left]

theorem Filled.poke {cbtx bs : Bytes} {size : Nat} (h : Filled cbtx size bs) {x : Bytes} {n : Nat}
    (hx : x.length = n) (hroom : size + n ≤ 256) :
    ∃ cbtx', Gbt.poke cbtx size x = pure cbtx' ∧ Filled cbtx' (size + n) (bs ++ x) := by
  subst hx
  have hlen := h.length
  have hfit : size + x.length ≤ cbtx.length := by omega
  refine ⟨_, poke_of_fits hfit, (length_store hfit).trans hlen, ?_, ?_⟩
  · rw [List.length_append, h.count]
  · rw [take_store (by omega), h.front]

/-! ## The height -/

/-- The script of the input before anything is added. -/
def heightScript (height : Nat) : Bytes :=
  if height ≤ 16 then heightPush height ++ [0] else heightPush height

theorem store_nil {buf : Bytes} {off : Nat} : store buf off [] = buf := by
  rw [store, List.append_nil]
  exact List.take_append_drop off buf

theorem scriptNum_zero : scriptNum 0 = [] := by
  simp [scriptNum]

theorem pushHeight_zero {fuel : Nat} (hfuel : 0 < fuel) (cbtx : Bytes) (size : Nat) :
    pushHeight fuel 0 cbtx size = pure (cbtx, size) := by
  obtain ⟨fuel, rfl⟩ : ∃ k, fuel = k + 1 := ⟨fuel - 1, by omega⟩
  rw [pushHeight, if_pos rfl]

theorem pushHeight_pure {fuel k n : Nat} {cbtx : Bytes} {size : Nat} (hn : n < 256 ^ k)
    (hfuel : k < fuel) (hroom : size + (scriptNum n).length ≤ cbtx.length) :
    pushHeight fuel n cbtx size =
      pure (store cbtx size (scriptNum n), size + (scriptNum n).length) := by
  induction fuel generalizing k n cbtx size with
  | zero => omega
  | succ fuel ih =>
      rcases Nat.eq_zero_or_pos n with rfl | hpos
      · rw [scriptNum_zero, store_nil]
        exact pushHeight_zero (Nat.succ_pos fuel) cbtx size
      obtain ⟨k, rfl⟩ : ∃ j, k = j + 1 := by
        refine ⟨k - 1, ?_⟩
        rcases k with _ | k
        · omega
        · rfl
      have hlow : ((n : Int) % 256).toNat = n % 256 := by omega
      have hrest : (n : Int) / 256 = ((n / 256 : Nat) : Int) := by omega
      rw [pushHeight, if_neg (by omega), hlow, hrest]
      by_cases hlarge : 256 ≤ n
      · rw [scriptNum_large hlarge, List.length_cons] at hroom ⊢
        have hbyte : size + [UInt8.ofNat (n % 256)].length ≤ cbtx.length := by
          rw [List.length_singleton]
          omega
        have hk : n / 256 < 256 ^ k := by
          rw [Nat.pow_succ] at hn
          omega
        have hoff : size + 1 = size + [UInt8.ofNat (n % 256)].length := rfl
        rw [poke_of_fits hbyte, pure_bind]
        simp only
        rw [if_neg (by omega), ih hk (by omega) (by rw [length_store hbyte]; omega),
          store_append hoff hbyte, List.singleton_append, Nat.add_assoc, Nat.add_comm 1]
      · have hzero : n / 256 = 0 := by omega
        have hmod : n % 256 = n := by omega
        rw [hzero, hmod]
        rw [scriptNum_small hpos (by omega)] at hroom ⊢
        by_cases hsign : 0x80 ≤ n
        · rw [if_pos hsign] at hroom ⊢
          have hsign' : (n : Int) < 0x100 ∧ 0x80 ≤ (n : Int) := by omega
          have hoff : size + 1 = size + [UInt8.ofNat n].length := rfl
          simp only [if_pos hsign']
          rw [← bind_assoc, poke_poke hoff, List.singleton_append, poke_of_fits hroom, pure_bind]
          exact pushHeight_zero (by omega) _ _
        · rw [if_neg hsign] at hroom ⊢
          rw [poke_of_fits hroom, pure_bind]
          simp only
          rw [if_neg (by omega)]
          exact pushHeight_zero (by omega) _ _

/-- The height is written behind a gap for the length of the script. -/
structure HeightWritten (cbtx front script : Bytes) : Prop where
  length : cbtx.length = 256
  front : cbtx.take 41 = front
  script : slice cbtx 42 script.length = script

theorem take_store_before {buf bs : Bytes} {n off : Nat} (hn : n ≤ off) (hoff : off ≤ buf.length) :
    (store buf off bs).take n = buf.take n := by
  have hn' : 0 + n ≤ off := by omega
  exact slice_store_before hn' hoff

theorem heightScript_fits {height : Nat} (h : height < 2 ^ 31) :
    2 ≤ (heightScript height).length ∧ (heightScript height).length ≤ 6 := by
  have hlen := length_scriptNum (n := height) (k := 4) (by omega)
  rw [heightScript, heightPush]
  split
  · exact ⟨Nat.le_refl 2, by simp⟩
  · next hlarge =>
      have hne : scriptNum height ≠ [] := by
        rcases Nat.lt_or_ge height 256 with hsmall | hbig
        · rw [scriptNum_small (by omega) hsmall]
          split
          · exact nofun
          · exact nofun
        · rw [scriptNum_large hbig]
          exact nofun
      have hpos := List.length_pos_iff.2 hne
      rw [List.length_cons]
      omega

/-- The height becomes this script, wherever the front of the transaction is. -/
def WritesHeight (height : Int) (script : Bytes) : Prop :=
  ∀ cbtx : Bytes, cbtx.length = 256 →
    ∃ cbtx', coinbaseHeight height cbtx = pure (cbtx', 42 + script.length) ∧
      HeightWritten cbtx' (cbtx.take 41) script

theorem writesHeight {height : Nat} (hpos : 1 ≤ height) (hlt : height < 2 ^ 31) :
    WritesHeight height (heightScript height) := by
  intro cbtx hlen
  have hscriptNum := length_scriptNum (n := height) (k := 4) (by omega)
  rw [coinbaseHeight, heightScript, heightPush]
  by_cases hsmall : height ≤ 16
  · have hcond : (1 : Int) ≤ height ∧ (height : Int) ≤ 16 := by omega
    have hop : ((height : Int) + 0x50).toNat = height + 0x50 := by omega
    have hoff : 43 = 42 + [UInt8.ofNat (height + 0x50)].length := rfl
    have hfit : 42 + [UInt8.ofNat (height + 0x50), 0].length ≤ cbtx.length := by
      simp [hlen]
    rw [if_pos hcond, if_pos hsmall, if_pos hsmall, hop, ← bind_assoc, poke_poke hoff,
      List.singleton_append, poke_of_fits hfit, pure_bind]
    refine ⟨_, rfl, (length_store hfit).trans hlen, ?_, slice_store hfit⟩
    rw [take_store_before (by omega) (by omega)]
  · have hcond : ¬((1 : Int) ≤ height ∧ (height : Int) ≤ 16) := by omega
    have hroom : 43 + (scriptNum height).length ≤ cbtx.length := by omega
    have hlen₁ := length_store hroom
    have hfit : 42 + [UInt8.ofNat (scriptNum height).length].length ≤
        (store cbtx 43 (scriptNum height)).length := by
      simp [hlen₁, hlen]
    rw [if_neg hcond, if_neg hsmall, if_neg hsmall,
      pushHeight_pure (k := 4) (by omega) (by omega) hroom, pure_bind]
    simp only [Nat.add_sub_cancel_left]
    rw [poke_of_fits hfit, pure_bind]
    refine ⟨_, ?_, (length_store hfit).trans (hlen₁.trans hlen), ?_, ?_⟩
    · rw [List.length_cons, Nat.add_comm _ 1, ← Nat.add_assoc]
    · rw [take_store_before (by omega) (by omega), take_store_before (by omega) (by omega)]
    · have hlength := slice_store hfit
      rw [List.length_singleton] at hlength
      rw [List.length_cons, Nat.add_comm _ 1, slice_add, hlength,
        slice_store_after hfit (by rw [List.length_singleton]), slice_store hroom]
      rfl

/-- The length of the script goes into the gap. -/
theorem HeightWritten.poke {cbtx front script : Bytes} (h : HeightWritten cbtx front script)
    (hfront : front.length = 41) (b : UInt8) :
    ∃ cbtx', Gbt.poke cbtx 41 [b] = pure cbtx' ∧
      Filled cbtx' (42 + script.length) (front ++ [b] ++ script) := by
  have hlen := h.length
  have hfit : 41 + [b].length ≤ cbtx.length := by
    simp [hlen]
  refine ⟨_, poke_of_fits hfit, (length_store hfit).trans hlen, ?_, ?_⟩
  · rw [List.length_append, List.length_append, hfront, List.length_singleton]
  have hkeep : slice (store cbtx 41 [b]) 42 script.length = script := by
    rw [slice_store_after hfit (by rw [List.length_singleton]), h.script]
  have htake : (store cbtx 41 [b]).take 42 = front ++ [b] := by
    rw [show 42 = 41 + [b].length from rfl, take_store (by omega), h.front]
  rw [List.take_add, htake]
  exact congrArg (front ++ [b] ++ ·) hkeep

/-! ## The commitment to the witnesses -/

/-- A template has the hash of a transaction backwards. -/
def HashOf (tx : Json) (h : Hash) : Prop :=
  ∃ hex, jsonStringValue (jsonObjectGet (some tx) "hash") = some hex ∧
    unhex hex = some h.toList.reverse

def witnessCommitment (sha256d : Bytes → Hash) (hashes : List Hash) : Bytes :=
  let root := (treeRoot (pairHash sha256d) (List.replicate 32 0 :: hashes.map (·.toList))).getD []
  (sha256d (root ++ List.replicate 32 0)).toList

/-- One round of the loop over the hashes, as it stands in `witnessLeaves`. -/
def witnessRound (wtree : Bytes) : Json × Nat → GbtM Bytes := fun (tx, i) =>
  match jsonObjectGet (some tx) "hash" with
  | none => throw (.out "JSON invalid transaction hash")
  | some hash => do
      let leaf ← peek wtree (32 * (1 + i)) 32
      match hex2bin leaf (jsonStringValue (some hash)) 32 with
      | (false, _) => throw (.out "JSON invalid transaction hash")
      | (true, leaf) => poke wtree (32 * (1 + i)) (memrev leaf)

theorem node_store {tree bs : Bytes} {i : Nat} (hbs : bs.length = 32)
    (hfit : 32 * i + bs.length ≤ tree.length) (j : Nat) :
    node (store tree (32 * i) bs) j = if j = i then bs else node tree j := by
  have hpoke : poke tree (32 * i) bs sampleStart =
      .ok (store tree (32 * i) bs) sampleStart := by
    rw [poke_of_fits hfit]
    rfl
  exact node_poke hbs hpoke j

theorem witnessRound_pure {wtree : Bytes} {tx : Json} {h : Hash} {i : Nat} (hhash : HashOf tx h)
    (hroom : 32 * (1 + i) + 32 ≤ wtree.length) :
    ∃ wtree', witnessRound wtree (tx, i) = pure wtree' ∧ wtree'.length = wtree.length ∧
      ∀ j, node wtree' j = if j = 1 + i then h.toList else node wtree j := by
  obtain ⟨hex, hget, hhex⟩ := hhash
  have hfit : 32 * (1 + i) + h.toList.length ≤ wtree.length := by
    rw [Vector.length_toList]
    exact hroom
  rw [witnessRound]
  cases hj : jsonObjectGet (some tx) "hash" with
  | none =>
      rw [hj] at hget
      cases hget
  | some hash =>
      rw [hj] at hget
      have hlen : h.toList.reverse.length = 32 := by
        rw [List.length_reverse, Vector.length_toList]
      simp only
      rw [peek_of_fits hroom, pure_bind, hget,
        hex2bin_unhex hhex (length_slice hroom) (Nat.le_of_eq hlen), hlen]
      simp only [Nat.sub_self, List.replicate_zero, List.append_nil, memrev, List.reverse_reverse]
      rw [poke_of_fits hfit]
      exact ⟨_, rfl, length_store hfit, node_store Vector.length_toList hfit⟩

theorem witnessLeaves_pure {txa : List Json} {hashes : List Hash}
    (h : List.Forall₂ HashOf txa hashes) :
    ∀ {k : Nat} {wtree : Bytes}, 32 * (1 + k + txa.length) ≤ wtree.length →
      ∃ wtree', (txa.zipIdx k).foldlM witnessRound wtree = pure wtree' ∧
        wtree'.length = wtree.length ∧ (∀ j ≤ k, node wtree' j = node wtree j) ∧
        (List.range txa.length).map (fun i => node wtree' (k + i + 1)) =
          hashes.map (·.toList) := by
  induction h with
  | nil => exact fun {k wtree} _ => ⟨wtree, rfl, rfl, fun _ _ => rfl, rfl⟩
  | @cons tx hash txa hashes hhash _ ih =>
      intro k wtree hroom
      rw [List.length_cons] at hroom
      have hroom₁ : 32 * (1 + k) + 32 ≤ wtree.length := by omega
      obtain ⟨wtree₁, hround, hlen₁, hnode₁⟩ := witnessRound_pure hhash hroom₁
      have hroom₂ : 32 * (1 + (k + 1) + txa.length) ≤ wtree₁.length := by omega
      obtain ⟨wtree₂, hrest, hlen₂, hkeep, hleaves⟩ := ih hroom₂
      refine ⟨wtree₂, ?_, hlen₂.trans hlen₁, fun j hj => ?_, ?_⟩
      · rw [List.zipIdx_cons, List.foldlM_cons, hround, pure_bind, hrest]
      · rw [hkeep j (by omega), hnode₁, if_neg (by omega)]
      · rw [List.length_cons, List.range_succ_eq_map, List.map_cons, List.map_cons, List.map_map]
        congr 1
        · rw [hkeep _ (by omega), hnode₁, if_pos (by omega)]
        · rw [← hleaves]
          refine List.map_congr_left fun i _ => ?_
          rw [Function.comp_apply, Nat.succ_eq_add_one,
            show k + (i + 1) + 1 = k + 1 + i + 1 by omega]

theorem witnessTree_pure (sha256d : Bytes → Hash) {txa : List Json} {hashes : List Hash}
    (h : List.Forall₂ HashOf txa hashes) :
    ∃ leaves wtree root,
      witnessLeaves txa (List.replicate (32 * (txa.length + 2)) 0) = pure leaves ∧
      foldTree sha256d (txa.length + 1) (txa.length + 1) leaves = pure wtree ∧
      wtree.length = 32 * (txa.length + 2) ∧ node wtree 0 = root ∧
      (sha256d (root ++ List.replicate 32 0)).toList = witnessCommitment sha256d hashes := by
  have hlen₀ : (List.replicate (32 * (txa.length + 2)) (0 : UInt8)).length =
      32 * (txa.length + 2) := List.length_replicate
  have hroom₀ : 32 * (1 + 0 + txa.length) ≤
      (List.replicate (32 * (txa.length + 2)) (0 : UInt8)).length := by omega
  obtain ⟨leaves, hleaves, hlen, hkeep, hnodes⟩ := witnessLeaves_pure h hroom₀
  have hroom : 32 * (2 * ((txa.length + 1 + 1) / 2)) ≤ leaves.length := by omega
  obtain ⟨wtree, hfold, hlen', hroot⟩ := foldTree_foldsTo sha256d (Nat.le_add_left 1 _) hroom
  have hzero : node leaves 0 = List.replicate 32 0 := by
    rw [hkeep 0 (Nat.le_refl 0), node, slice, Nat.mul_zero, List.drop_zero, List.take_replicate,
      Nat.min_eq_left (by omega)]
  have hrange : (List.range (txa.length + 1)).map (node leaves) =
      List.replicate 32 0 :: hashes.map (·.toList) := by
    rw [List.range_succ_eq_map, List.map_cons, List.map_map, hzero, ← hnodes]
    simp only [Nat.zero_add]
    rfl
  refine ⟨leaves, wtree, _, hleaves, hfold _ (Nat.le_refl _), by rw [hlen', hlen, hlen₀], rfl, ?_⟩
  rw [witnessCommitment, ← hrange, hroot]
  rfl

def witnessScript (commitment : Bytes) : Bytes := [0x6a, 0x24, 0xaa, 0x21, 0xa9, 0xed] ++ commitment

theorem compactSize_byte {n : Nat} (h : n < 0xfd) : compactSize n = [UInt8.ofNat n] := if_pos h

theorem witnessOutput_bytes {commitment : Bytes} (h : commitment.length = 32) :
    List.replicate 8 0 ++ [38, 0x6a, 0x24, 0xaa, 0x21, 0xa9, 0xed] ++ commitment =
      TxOut.bytes ⟨0, witnessScript commitment⟩ := by
  have hlen : (witnessScript commitment).length = 38 := by
    rw [witnessScript, List.length_append, h]
    rfl
  have hzero : leBytes 8 0 = List.replicate 8 0 := by decide
  rw [TxOut.bytes, varBytes, hlen, compactSize_byte (by omega), hzero, List.append_assoc]
  rfl

theorem witnessOutput_pure (sha256d : Bytes → Hash) {txa : List Json} {hashes : List Hash}
    (h : List.Forall₂ HashOf txa hashes) {cbtx bs : Bytes} {size : Nat}
    (hfilled : Filled cbtx size bs) (hroom : size + 47 ≤ 256) :
    ∃ cbtx', witnessOutput sha256d txa cbtx size = pure (cbtx', size + 47) ∧
      Filled cbtx' (size + 47)
        (bs ++ TxOut.bytes ⟨0, witnessScript (witnessCommitment sha256d hashes)⟩) := by
  obtain ⟨leaves, wtree, root, hleaves, hfold, hlen, hroot, hcommit⟩ := witnessTree_pure sha256d h
  have hcommitLen : (witnessCommitment sha256d hashes).length = 32 := by
    rw [← hcommit, Vector.length_toList]
  obtain ⟨cbtx₁, hvalue, hfilled₁⟩ :=
    hfilled.poke (x := List.replicate 8 0) (n := 8) List.length_replicate (by omega)
  obtain ⟨cbtx₂, hscript, hfilled₂⟩ :=
    hfilled₁.poke (x := [38, 0x6a, 0x24, 0xaa, 0x21, 0xa9, 0xed]) (n := 7) rfl (by omega)
  obtain ⟨cbtx₃, hwrite, hfilled₃⟩ := hfilled₂.poke hcommitLen (by omega)
  have hfit : 32 + (List.replicate 32 (0 : UInt8)).length ≤ wtree.length := by
    rw [List.length_replicate]
    omega
  have hpeek : 0 + 64 ≤ (store wtree 32 (List.replicate 32 0)).length := by
    rw [length_store hfit]
    omega
  have hpair : slice (store wtree 32 (List.replicate 32 0)) 0 64 = root ++ List.replicate 32 0 := by
    have hsecond := slice_store hfit
    rw [List.length_replicate] at hsecond
    rw [show 64 = 32 + 32 from rfl, slice_add, Nat.zero_add, hsecond,
      slice_store_before (by omega) (by omega), ← hroot]
    rfl
  refine ⟨cbtx₃, ?_, ?_⟩
  · rw [witnessOutput, hvalue, pure_bind, hscript, pure_bind, hleaves, pure_bind, hfold, pure_bind,
      poke_of_fits hfit, pure_bind, peek_of_fits hpeek, pure_bind, hpair, hcommit, hwrite,
      pure_bind]
  · rw [← witnessOutput_bytes hcommitLen, ← List.append_assoc, ← List.append_assoc]
    exact hfilled₃

/-! ## The transaction -/

/-- The outputs: the payment, and the commitment where there is one. -/
def ownOuts (value : Nat) (script : Bytes) (commitment : Option Bytes) : List TxOut :=
  ⟨value, script⟩ :: (commitment.map fun c => ⟨0, witnessScript c⟩).toList

/-- A coinbase has one input, which spends nothing. -/
def coinbaseTx (scriptSig : Bytes) (outs : List TxOut) : Tx where
  version := 1
  ins := [⟨List.replicate 32 0, 0xffffffff, scriptSig, 0xffffffff⟩]
  outs := outs
  lockTime := 0

def coinbaseFront : Bytes := le32enc 1 ++ [1] ++ List.replicate 32 0 ++ le32enc 0xffffffff

/-- What follows the script of the input. -/
def coinbaseRest (outs : List TxOut) : Bytes :=
  le32enc 0xffffffff ++ [UInt8.ofNat outs.length] ++ outs.flatMap TxOut.bytes ++ le32enc 0

theorem coinbaseTx_bytes {scriptSig : Bytes} {outs : List TxOut} (hsig : scriptSig.length < 0xfd)
    (houts : outs.length < 0xfd) :
    (coinbaseTx scriptSig outs).bytes =
      coinbaseFront ++ [UInt8.ofNat scriptSig.length] ++ scriptSig ++ coinbaseRest outs := by
  have hversion : leBytes 4 1 = le32enc 1 := by decide
  have hones : leBytes 4 0xffffffff = le32enc 0xffffffff := by decide
  have hlock : leBytes 4 0 = le32enc 0 := by decide
  have hcount : compactSize 1 = [1] := by decide
  simp only [Tx.bytes, coinbaseTx, List.length_singleton, List.flatMap_cons, List.flatMap_nil,
    TxIn.bytes, varBytes, compactSize_byte hsig, compactSize_byte houts, hversion, hones, hlock,
    hcount, coinbaseFront, coinbaseRest, List.append_assoc, List.append_nil]

/-- More in the script is the transaction with that script. -/
theorem insertScript_coinbaseTx {scriptSig extra : Bytes} {outs : List TxOut}
    (hsig : scriptSig.length + extra.length < 0xfd) (houts : outs.length < 0xfd) :
    scriptLength (coinbaseTx scriptSig outs).bytes = scriptSig.length ∧
      insertScript (coinbaseTx scriptSig outs).bytes extra =
        (coinbaseTx (scriptSig ++ extra) outs).bytes := by
  have hfront : coinbaseFront.length = 41 := by decide
  have hbytes := coinbaseTx_bytes (show scriptSig.length < 0xfd by omega) houts
  have hscript : scriptLength (coinbaseTx scriptSig outs).bytes = scriptSig.length := by
    rw [scriptLength, hbytes, List.append_assoc, List.append_assoc, List.getD_eq_getElem?_getD,
      List.getElem?_append_right (by omega), hfront]
    exact UInt8.toNat_ofNat_of_lt'
      (Nat.lt_of_lt_of_le (by omega) (show 0xfd ≤ UInt8.size by decide))
  have htake : (coinbaseTx scriptSig outs).bytes.take 41 = coinbaseFront := by
    rw [hbytes, List.append_assoc, List.append_assoc, List.take_left' hfront]
  have hhead : (coinbaseFront ++ [UInt8.ofNat scriptSig.length]).length = 42 := by
    rw [List.length_append, hfront, List.length_singleton]
  have hslice : slice (coinbaseTx scriptSig outs).bytes 42 scriptSig.length = scriptSig := by
    rw [slice, hbytes, List.append_assoc, List.drop_left' hhead, List.take_left]
  have hdrop : (coinbaseTx scriptSig outs).bytes.drop (42 + scriptSig.length) =
      coinbaseRest outs := by
    rw [hbytes, ← List.drop_drop, List.append_assoc _ scriptSig, List.drop_left' hhead,
      List.drop_left]
  refine ⟨hscript, ?_⟩
  rw [insertScript, hscript, htake, hslice, hdrop,
    coinbaseTx_bytes (by rw [List.length_append]; exact hsig) houts, List.length_append]
  simp only [List.append_assoc]

/-- The value, as its two halves. -/
theorem value_bytes (v : UInt64) :
    le32enc v.toUInt32 ++ le32enc (v >>> 32).toUInt32 = leBytes 8 v.toNat := by
  have hlt := v.toNat_lt
  have hhigh : v.toNat / 2 ^ 32 < 2 ^ 32 := by omega
  rw [le32enc_eq_leBytes, le32enc_eq_leBytes, leBytes_add 4 4, UInt64.toNat_toUInt32,
    UInt64.toNat_toUInt32, UInt64.toNat_shiftRight, Nat.shiftRight_eq_div_pow]
  rw [show ((32 : UInt64).toNat % 64) = 32 by decide, show 2 ^ 32 = 256 ^ 4 by decide, leBytes_mod,
    leBytes_mod]

theorem ownOuts_bytes (v : UInt64) {script : Bytes} (hscript : script.length < 0xfd)
    (commitment : Option Bytes) :
    (ownOuts v.toNat script commitment).flatMap TxOut.bytes =
      le32enc v.toUInt32 ++ le32enc (v >>> 32).toUInt32 ++
        [UInt8.ofNat script.length] ++ script ++
        (commitment.map fun c => TxOut.bytes ⟨0, witnessScript c⟩).getD [] := by
  have hpay : TxOut.bytes ⟨v.toNat, script⟩ = leBytes 8 v.toNat ++
      ([UInt8.ofNat script.length] ++ script) := by
    rw [TxOut.bytes, varBytes, compactSize_byte hscript]
  rw [value_bytes, ownOuts, List.flatMap_cons, hpay]
  cases commitment with
  | none => simp
  | some c => simp

/-- What the miner makes of a value. -/
def paidValue (value : Nat) : UInt64 := int64OfDouble (doubleOfInt value)

/-- It pays the value just where a `double` is exactly that. -/
theorem paidValue_eq_iff {value : Nat} (hlt : value < 2 ^ 63) :
    (paidValue value).toNat = value ↔ FitsBits 53 value := by
  have hdouble : doubleOfInt value = (roundBits 53 value : Nat) := by
    rw [doubleOfInt, Int.natAbs_natCast]
    rcases Nat.eq_zero_or_pos value with rfl | hpos
    · rfl
    · rw [Int.sign_eq_one_of_pos (Int.natCast_pos.2 hpos), Int.one_mul]
  have hsign : (0 : Rat) ≤ ((roundBits 53 value : Nat) : Int) := by
    exact_mod_cast Nat.zero_le _
  rw [← roundBits_eq_self_iff, paidValue, int64OfDouble, hdouble]
  simp only [if_pos hsign, Rat.floor_intCast]
  by_cases hin : roundBits 53 value < 2 ^ 63
  · rw [if_pos (by omega), UInt64.ofInt, UInt64.toNat_ofNat']
    omega
  · rw [if_neg (by omega)]
    exact iff_of_false (fun h => absurd (h ▸ hlt) (by decide)) (by omega)

/-- The template and the record give a coinbase of the miner's own. Where an integer above
the range of `int` is read as a real, its value comes as the nearest `double`. -/
structure OwnInputs (cfg : GbtConfig) (val : Option Json) (txa : List Json) (height value : Nat)
    (hashes : List Hash) : Prop where
  heightPos : 1 ≤ height
  heightLt : height < 2 ^ 31
  coinbasevalue : jsonObjectGet val "coinbasevalue" = some (.integer value) ∨
    jsonObjectGet val "coinbasevalue" = some (.real (doubleOfInt value))
  valueLt : value < 2 ^ 63
  scriptPos : 1 ≤ cfg.pkScriptSize
  scriptLe : cfg.pkScriptSize ≤ 42
  scriptThere : cfg.pkScriptSize ≤ cfg.pkScript.length
  hashesOf : segwit val = true → List.Forall₂ HashOf txa hashes

/-- The output script of the configuration. -/
def payoutScript (cfg : GbtConfig) : Bytes := slice cfg.pkScript 0 cfg.pkScriptSize

/-- The script is in the array of forty-two bytes that the miner has for it. -/
structure ScriptThere (cfg : GbtConfig) : Prop where
  le : cfg.pkScriptSize ≤ 42
  there : cfg.pkScriptSize ≤ cfg.pkScript.length

theorem ScriptThere.length {cfg : GbtConfig} (h : ScriptThere cfg) :
    (payoutScript cfg).length = cfg.pkScriptSize :=
  length_slice (by rw [Nat.zero_add]; exact h.there)

def ownCommitment (sha256d : Bytes → Hash) (val : Option Json) (hashes : List Hash) :
    Option Bytes :=
  if segwit val then some (witnessCommitment sha256d hashes) else none

section

variable {sha256d : Bytes → Hash} {cfg : GbtConfig} {val : Option Json} {txa : List Json}
  {height value : Nat} {hashes : List Hash}

theorem OwnInputs.script (h : OwnInputs cfg val txa height value hashes) : ScriptThere cfg :=
  ⟨h.scriptLe, h.scriptThere⟩

/-- What is in the buffer once the payment is. -/
def paidBytes (script : Bytes) (value : UInt64) (outs : Nat) (pkScript : Bytes) : Bytes :=
  coinbaseFront ++ [UInt8.ofNat script.length] ++ script ++ le32enc 0xffffffff ++
    [UInt8.ofNat outs] ++ le32enc value.toUInt32 ++ le32enc (value >>> 32).toUInt32 ++
    [UInt8.ofNat pkScript.length] ++ pkScript

/-- The payment is written, and what is left is the commitment and the lock time. -/
theorem buildCoinbase_paid (sha256d : Bytes → Hash) (hscript : ScriptThere cfg)
    (hpos : cfg.pkScriptSize ≠ 0) {amount : UInt64} (hvalue : coinbaseValue val = pure amount)
    {script : Bytes} (hsigLe : script.length ≤ 6) (segwit : Bool) {s : GbtState}
    (hheight : WritesHeight s.work.height script) :
    ∃ cbtx size, size = 56 + script.length + cfg.pkScriptSize ∧
      Filled cbtx size (paidBytes script amount (if segwit then 2 else 1) (payoutScript cfg)) ∧
      buildCoinbase sha256d cfg val segwit txa s =
        ((if segwit then witnessOutput sha256d txa cbtx size else pure (cbtx, size)) >>=
          fun r => poke r.1 r.2 (le32enc 0) >>= fun cbtx => pure (cbtx, r.2 + 4)) s := by
  have hscriptLe := hscript.le
  have hscriptLen := hscript.length
  have hpk := hscript.there
  have hfront : coinbaseFront.length = 41 := by decide
  obtain ⟨c₁, h₁, f₁⟩ := (Filled.start cfg.heap).poke (x := le32enc 1) (n := 4) rfl (by omega)
  obtain ⟨c₂, h₂, f₂⟩ := f₁.poke (x := [1]) (n := 1) rfl (by omega)
  obtain ⟨c₃, h₃, f₃⟩ := f₂.poke (x := List.replicate 32 0) (n := 32) rfl (by omega)
  obtain ⟨c₄, h₄, f₄⟩ := f₃.poke (x := le32enc 0xffffffff) (n := 4) rfl (by omega)
  obtain ⟨c₅, h₅, w₅⟩ := hheight c₄ f₄.length
  rw [show c₄.take 41 = coinbaseFront from f₄.front] at w₅
  obtain ⟨c₆, h₆, f₆⟩ := w₅.poke hfront (UInt8.ofNat script.length)
  obtain ⟨c₇, h₇, f₇⟩ := f₆.poke (x := le32enc 0xffffffff) (n := 4) rfl (by omega)
  obtain ⟨c₈, h₈, f₈⟩ := f₇.poke (x := [if segwit then 2 else 1]) (n := 1) rfl (by omega)
  obtain ⟨c₉, h₉, f₉⟩ := f₈.poke (x := le32enc amount.toUInt32) (n := 4) rfl (by omega)
  obtain ⟨c₁₀, h₁₀, f₁₀⟩ := f₉.poke (x := le32enc (amount >>> 32).toUInt32) (n := 4) rfl (by omega)
  obtain ⟨c₁₁, h₁₁, f₁₁⟩ := f₁₀.poke (x := [UInt8.ofNat cfg.pkScriptSize]) (n := 1) rfl (by omega)
  have hpeek : peek cfg.pkScript 0 cfg.pkScriptSize = pure (payoutScript cfg) :=
    peek_of_fits (by omega)
  obtain ⟨c₁₂, h₁₂, f₁₂⟩ := f₁₁.poke hscriptLen (by omega)
  have hsize : 42 + script.length + 4 + 1 + 4 + 4 + 1 + cfg.pkScriptSize =
      56 + script.length + cfg.pkScriptSize := by omega
  rw [hsize] at f₁₂
  have houts : [if segwit then (2 : UInt8) else 1] = [UInt8.ofNat (if segwit then 2 else 1)] := by
    cases segwit with
    | true => rfl
    | false => rfl
  refine ⟨c₁₂, _, rfl, ?_, ?_⟩
  · rw [paidBytes, ← houts, hscriptLen]
    exact f₁₂
  · rw [buildCoinbase]
    rw [if_neg (by omega), hvalue, pure_bind, h₁, pure_bind, h₂, pure_bind, h₃, pure_bind, h₄,
      pure_bind]
    show (coinbaseHeight s.work.height c₄ >>= _) s = _
    rw [h₅, pure_bind]
    simp only [Nat.add_sub_cancel_left]
    rw [h₆, pure_bind, h₇, pure_bind, h₈, pure_bind, h₉, pure_bind, h₁₀, pure_bind, h₁₁, pure_bind,
      hpeek, pure_bind, h₁₂, pure_bind]
    rw [show 42 + script.length + 14 + cfg.pkScriptSize =
      56 + script.length + cfg.pkScriptSize by omega]
    cases segwit with
    | true => rfl
    | false => rfl

/-- The buffer holds the transaction before anything is added to its script. -/
theorem buildCoinbase_tx (sha256d : Bytes → Hash) (h : OwnInputs cfg val txa height value hashes)
    {s : GbtState} (hheight : s.work.height = height) :
    ∃ cbtx size, buildCoinbase sha256d cfg val (segwit val) txa s = .ok (cbtx, size) s ∧
      42 + (heightScript height).length ≤ size ∧ size ≤ 149 + (heightScript height).length ∧
      Filled cbtx size (coinbaseTx (heightScript height) (ownOuts (paidValue value).toNat
        (payoutScript cfg) (ownCommitment sha256d val hashes))).bytes := by
  obtain ⟨hsigPos, hsigLe⟩ := heightScript_fits h.heightLt
  have hvalue : coinbaseValue val = pure (paidValue value) := by
    rw [coinbaseValue]
    rcases h.coinbasevalue with hinteger | hreal
    · rw [hinteger]
      rfl
    · rw [hreal]
      rfl
  obtain ⟨cbtx, size, hsize, hfilled, hrun⟩ := buildCoinbase_paid sha256d h.script
    (Nat.pos_iff_ne_zero.1 h.scriptPos) hvalue hsigLe (segwit val)
    (hheight ▸ writesHeight h.heightPos h.heightLt)
  have hscriptLe := h.scriptLe
  have hscriptLen := h.script.length
  have hbytes : ∀ commitment, (coinbaseTx (heightScript height)
      (ownOuts (paidValue value).toNat (payoutScript cfg) commitment)).bytes =
        paidBytes (heightScript height) (paidValue value)
          (ownOuts (paidValue value).toNat (payoutScript cfg) commitment).length
          (payoutScript cfg) ++
          (commitment.map fun c => TxOut.bytes ⟨0, witnessScript c⟩).getD [] ++ le32enc 0 := by
    intro commitment
    have houts : (ownOuts (paidValue value).toNat (payoutScript cfg) commitment).length <
        0xfd := by
      cases commitment with
      | none => exact (by decide : 1 < 0xfd)
      | some c => exact (by decide : 2 < 0xfd)
    rw [coinbaseTx_bytes (by omega) houts, coinbaseRest, ownOuts_bytes _ (by omega)]
    simp only [paidBytes, List.append_assoc]
  rw [hrun, ownCommitment]
  by_cases hsegwit : segwit val = true
  · rw [if_pos hsegwit] at hfilled ⊢
    obtain ⟨cbtx₁, hwitness, hfilled₁⟩ :=
      witnessOutput_pure sha256d (h.hashesOf hsegwit) hfilled (by omega)
    obtain ⟨cbtx₂, hlock, hfilled₂⟩ := hfilled₁.poke (x := le32enc 0) (n := 4) rfl (by omega)
    rw [if_pos hsegwit, hwitness, pure_bind]
    simp only
    rw [hlock, pure_bind]
    refine ⟨cbtx₂, size + 47 + 4, rfl, by omega, by omega, ?_⟩
    rw [hbytes]
    exact hfilled₂
  · rw [if_neg hsegwit] at hfilled ⊢
    obtain ⟨cbtx₁, hlock, hfilled₁⟩ := hfilled.poke (x := le32enc 0) (n := 4) rfl (by omega)
    rw [if_neg hsegwit, pure_bind]
    simp only
    rw [hlock, pure_bind]
    refine ⟨cbtx₁, size + 4, rfl, by omega, by omega, ?_⟩
    rw [hbytes, Option.map_none, Option.getD_none, List.append_nil]
    exact hfilled₁

/-- Every field of the transaction has its width. -/
theorem sized_coinbaseTx {scriptSig : Bytes} (hsig : scriptSig.length ≤ 100)
    (h : OwnInputs cfg val txa height value hashes) :
    (coinbaseTx scriptSig (ownOuts (paidValue value).toNat (payoutScript cfg)
      (ownCommitment sha256d val hashes))).Sized := by
  have hscriptLe := h.scriptLe
  have hpay : TxOut.Sized ⟨(paidValue value).toNat, payoutScript cfg⟩ := by
    refine ⟨UInt64.toNat_lt _, ?_⟩
    rw [h.script.length]
    omega
  have hones : 0xffffffff < 2 ^ 32 := by decide
  have hone : 1 < 2 ^ 32 := by decide
  have hzero : 0 < 2 ^ 32 := by decide
  have hin : TxIn.Sized ⟨List.replicate 32 0, 0xffffffff, scriptSig, 0xffffffff⟩ :=
    ⟨List.length_replicate, hones, Nat.lt_of_le_of_lt hsig (by decide), hones⟩
  have hcommit : TxOut.Sized ⟨0, witnessScript (witnessCommitment sha256d hashes)⟩ := by
    refine ⟨(by decide : 0 < 2 ^ 64), ?_⟩
    rw [witnessScript, List.length_append, witnessCommitment, Vector.length_toList]
    decide
  refine ⟨hone, (by decide : 1 < 2 ^ 64), fun i hi => ?_, ?_, fun o ho => ?_, hzero⟩
  · rw [List.mem_singleton.1 hi]
    exact hin
  · rw [coinbaseTx, ownOuts, ownCommitment]
    split
    · exact (by decide : 2 < 2 ^ 64)
    · exact (by decide : 1 < 2 ^ 64)
  · rw [coinbaseTx, ownOuts, ownCommitment] at ho
    rcases List.mem_cons.1 ho with rfl | ho
    · exact hpay
    · split at ho
      · rw [List.mem_singleton.1 ho]
        exact hcommit
      · cases ho

end

/-- The bytes of the coinbase fit their block and are the transaction that pays `value`. -/
def OwnCoinbase (sha256d : Bytes → Hash) (cfg : GbtConfig) (val : Option Json) (txa : List Json)
    (height value : Nat) (hashes : List Hash) (s : GbtState) : Prop :=
  ∃ cbtx size scriptSig, coinbase sha256d cfg val txa s = .ok (cbtx, size) s ∧
    cbtx.length = 256 ∧ size ≤ 256 ∧
    decodeTx (cbtx.take size) = some {
      version := 1
      ins := [{ prevHash := List.replicate 32 0, prevIndex := 0xffffffff
                scriptSig := scriptSig, sequence := 0xffffffff }]
      outs := { value := value, script := payoutScript cfg } ::
        if segwit val then
          [{ value := 0
             script := [0x6a, 0x24, 0xaa, 0x21, 0xa9, 0xed] ++ witnessCommitment sha256d hashes }]
        else []
      lockTime := 0 } ∧
    2 ≤ scriptSig.length ∧ scriptSig.length ≤ 100 ∧ heightPush height <+: scriptSig

/-- It is one that pays what the miner makes of the value. -/
theorem own_coinbase_paid (sha256d : Bytes → Hash) {cfg : GbtConfig} {val : Option Json}
    {txa : List Json} {height value : Nat} {hashes : List Hash} {s : GbtState}
    (hown : jsonObjectGet val "coinbasetxn" = none) (hheight : s.work.height = height)
    (h : OwnInputs cfg val txa height value hashes) :
    OwnCoinbase sha256d cfg val txa height (paidValue value).toNat hashes s := by
  obtain ⟨cbtx, size, hbuild, hend, hsize, hfilled⟩ := buildCoinbase_tx sha256d h hheight
  obtain ⟨hsigPos, hsigLe⟩ := heightScript_fits h.heightLt
  have hlen := hfilled.length
  have houts : (ownOuts (paidValue value).toNat (payoutScript cfg)
      (ownCommitment sha256d val hashes)).length < 0xfd := by
    rw [ownOuts, ownCommitment]
    split
    · exact (by decide : 2 < 0xfd)
    · exact (by decide : 1 < 0xfd)
  have hscript : scriptLength cbtx = (heightScript height).length := by
    rw [scriptLength, ← getD_take (n := size) (by omega), hfilled.front]
    have hsig : (heightScript height).length + ([] : Bytes).length < 0xfd := by
      rw [List.length_nil]
      omega
    exact (insertScript_coinbaseTx hsig houts).1
  have hadded : (heightScript height).length + (addedScript cfg val cbtx).length ≤ 100 := by
    rw [← hscript]
    exact scriptLength_added_le cfg val (by omega)
  have hroom : size + (addedScript cfg val cbtx).length ≤ cbtx.length := by omega
  obtain ⟨cbtx', happend, hlen', htake⟩ :=
    appendCoinbase_pure (by omega) (.inr (hscript ▸ hend)) hroom
  rw [hfilled.front, (insertScript_coinbaseTx (by omega) houts).2] at htake
  refine ⟨cbtx', size + (addedScript cfg val cbtx).length,
    heightScript height ++ addedScript cfg val cbtx, ?_, hlen'.trans hlen, ?_, ?_, ?_, ?_, ?_⟩
  · rw [coinbase, hown]
    simp only
    rw [bind_of_ok hbuild]
    simp only
    rw [happend]
    rfl
  · omega
  · rw [htake, decodeTx_bytes (sized_coinbaseTx (by rw [List.length_append]; omega) h)]
    rw [coinbaseTx, ownOuts, ownCommitment]
    split
    · rfl
    · rfl
  · rw [List.length_append]
    omega
  · rw [List.length_append]
    omega
  · rw [heightScript]
    split
    · rw [List.append_assoc]
      exact List.prefix_append _ _
    · exact List.prefix_append _ _

/-- A coinbase pays one value. -/
theorem OwnCoinbase.value_unique {sha256d : Bytes → Hash} {cfg : GbtConfig} {val : Option Json}
    {txa : List Json} {height value value' : Nat} {hashes : List Hash} {s : GbtState}
    (h : OwnCoinbase sha256d cfg val txa height value hashes s)
    (h' : OwnCoinbase sha256d cfg val txa height value' hashes s) : value = value' := by
  obtain ⟨cbtx, size, scriptSig, hrun, -, -, hdecode, -⟩ := h
  obtain ⟨cbtx', size', scriptSig', hrun', -, -, hdecode', -⟩ := h'
  cases hrun.symm.trans hrun'
  have houts := congrArg Tx.outs (Option.some.inj (hdecode.symm.trans hdecode'))
  exact congrArg TxOut.value (List.cons.inj houts).1

/-- The bytes of the miner's own coinbase are the transaction that it means just where
a `double` holds the value. -/
theorem own_coinbase_decodes_iff (sha256d : Bytes → Hash) {cfg : GbtConfig} {val : Option Json}
    {txa : List Json} {height value : Nat} {hashes : List Hash} {s : GbtState}
    (hown : jsonObjectGet val "coinbasetxn" = none) (hheight : s.work.height = height)
    (h : OwnInputs cfg val txa height value hashes) :
    OwnCoinbase sha256d cfg val txa height value hashes s ↔ FitsBits 53 value := by
  have hpaid := own_coinbase_paid sha256d hown hheight h
  rw [← paidValue_eq_iff h.valueLt]
  constructor
  · exact hpaid.value_unique
  · intro hvalue
    rw [hvalue] at hpaid
    exact hpaid

/-! ## A template -/

/-- A template that pays `value`, with one transaction and no coinbase of the server's. -/
def ownTemplate (value : Int) : Json := .object
  [("rules", .array [.string (ascii "segwit")]), ("coinbasevalue", .integer value),
    ("coinbaseaux", .object [("flags", .string (bin2hex (ascii "aux")))])]

def ownTransactions : List Json :=
  [.object [("hash", .string (bin2hex (List.replicate 32 7)))]]

def ownConfig : GbtConfig :=
  { signedConfig with pkScriptSize := 25, pkScript := List.replicate 42 0xac }

theorem ownInputs_template {value : Nat} (h : value < 2 ^ 63) :
    OwnInputs ownConfig (some (ownTemplate value)) ownTransactions 300 value [.replicate 32 7] where
  heightPos := by decide
  heightLt := by decide
  coinbasevalue := .inl rfl
  valueLt := h
  scriptPos := by decide
  scriptLe := by decide
  scriptThere := by decide
  hashesOf _ := .cons ⟨_, rfl, unhex_bin2hex _⟩ .nil

theorem own_coinbase_decodes_iff_sample :
    OwnCoinbase sampleHash ownConfig (some (ownTemplate 5000000000)) ownTransactions 300 5000000000
      [.replicate 32 7] { sampleStart with work := { Work.zero with height := 300 } } :=
  (own_coinbase_decodes_iff sampleHash rfl rfl (ownInputs_template (by decide))).mpr
    ⟨5000000000, 0, by decide, by decide⟩

/-- The first value that no `double` is. -/
theorem own_coinbase_decodes_fails :
    ¬∀ (cfg : GbtConfig) (val : Option Json) (txa : List Json) (height value : Nat)
      (hashes : List Hash) (s : GbtState), jsonObjectGet val "coinbasetxn" = none →
      s.work.height = height → OwnInputs cfg val txa height value hashes →
      OwnCoinbase sampleHash cfg val txa height value hashes s := by
  intro hclaim
  have hlt : 2 ^ 53 + 1 < 2 ^ 63 := by decide
  have hmeant := hclaim ownConfig (some (ownTemplate (2 ^ 53 + 1 : Nat))) ownTransactions 300
    (2 ^ 53 + 1) [.replicate 32 7] { sampleStart with work := { Work.zero with height := 300 } }
    rfl rfl (ownInputs_template hlt)
  have hpaid := (own_coinbase_paid sampleHash rfl rfl (ownInputs_template hlt)).value_unique hmeant
  have hfits := (paidValue_eq_iff hlt).1 hpaid
  rw [← roundBits_eq_self_iff] at hfits
  exact absurd hfits (by decide)

end Gbt

end AlphaMiner
