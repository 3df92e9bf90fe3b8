import AlphaMiner.Lib.Merkle
import AlphaMiner.Proofs.GbtFailure
import AlphaMiner.Proofs.ScanSpec
import Mathlib.Data.List.FinRange

/-!
# The header of a template

Between a template and the eighty bytes that are hashed every field changes its
form three or four times: out of hexadecimal, by words or by bytes, into an
array of words, and out of it again with `be32enc`. The odd one out is the root,
which comes from hashes and is folded in place over an array of nodes.

`template_header` is the whole road. What it ends at, `consensusHeader`, knows
nothing of words. The coinbase and the leaves under the root are those of the
block that a submission would carry, which is why the theorem speaks of the
record's transactions too.
-/

namespace AlphaMiner

open Lib

/-! ## What is wanted -/

def consensusHeader (version : UInt32) (prevhash root : Bytes) (curtime : UInt32)
    (bits : Bytes) : Bytes :=
  le32enc version ++ prevhash.reverse ++ root ++ le32enc curtime ++ bits.reverse ++
    List.replicate 4 0

/-- The hash of two nodes, each in the order in which a hash is computed. -/
def pairHash (sha256d : Bytes → Hash) (x y : Bytes) : Bytes := (sha256d (x ++ y)).toList

/-- The leaf of a transaction: under segwit its id, which a template writes
backwards and which may leave off zeros, and the hash of its data otherwise. -/
def LeafOf (sha256d : Bytes → Hash) (segwit : Bool) (tx : Json) (leaf : Bytes) : Prop :=
  if segwit then
    ∃ txid p, jsonStringValue (jsonObjectGet (some tx) "txid") = some txid ∧
      unhex txid = some p ∧ leaf = (p ++ List.replicate (32 - p.length) 0).reverse
  else
    ∃ hex p, Gbt.txHex tx = some hex ∧ unhex hex = some p ∧ leaf = (sha256d p).toList

/-- The data of a transaction, which is left off where the node has it. -/
def copiedTx (val : Option Json) (tx : Json) : Bytes :=
  if Gbt.mutableHas val "submit/coinbase" then [] else (Gbt.txHex tx).getD []

/-- A block as `submitblock` takes it, without its header. -/
def blockTransactions (val : Option Json) (txa : List Json) (cbtx : Bytes) : Bytes :=
  bin2hex (varintEncode (UInt64.ofNat (1 + txa.length))) ++ bin2hex cbtx ++
    txa.flatMap (copiedTx val)

namespace Gbt

/-! ## Trees in arrays -/

def node (tree : Bytes) (i : Nat) : Bytes := slice tree (32 * i) 32

theorem node_poke {tree bs tree' : Bytes} {i : Nat} {s s' : GbtState} (hbs : bs.length = 32)
    (h : poke tree (32 * i) bs s = .ok tree' s') (j : Nat) :
    node tree' j = if j = i then bs else node tree j := by
  obtain ⟨hfit, rfl⟩ := poke_ok h
  rw [node]
  split
  · next hji =>
      have hself := slice_store hfit
      rw [hbs] at hself
      rw [hji, hself]
  · next hji =>
      rcases Nat.lt_or_gt_of_ne hji with hlt | hgt
      · exact slice_store_before (by omega) (by omega)
      · exact slice_store_after hfit (by omega)

/-- A level of odd length repeats its last node. -/
theorem padLevel_ok {n : Nat} {tree tree' : Bytes} {s s' : GbtState} (hn : 1 ≤ n)
    (h : padLevel n tree s = .ok tree' s') {j : Nat} (hj : j < 2 * ((n + 1) / 2)) :
    node tree' j = node tree (min j (n - 1)) := by
  rw [padLevel] at h
  split at h
  · next hodd =>
      obtain ⟨last, t, hlast, h⟩ := bind_ok.mp h
      obtain ⟨hfit, rfl⟩ := peek_ok hlast
      have hlen : (slice tree (32 * (n - 1)) 32).length = 32 := by
        rw [slice, List.length_take, List.length_drop]
        omega
      rw [node_poke hlen h]
      split
      · next hjn =>
          rw [hjn, Nat.min_eq_right (by omega)]
          rfl
      · next hjn => rw [Nat.min_eq_left (by omega)]
  · next heven =>
      obtain ⟨rfl, -⟩ := pure_ok.mp h
      rw [Nat.min_eq_left (by omega)]

theorem hashPairs_ok {sha256d : Bytes → Hash} {tree : Bytes} :
    ∀ {k : Nat} {tree' : Bytes} {s s' : GbtState}, hashPairs sha256d k tree s = .ok tree' s' →
      ∀ j, node tree' j =
        if j < k then pairHash sha256d (node tree (2 * j)) (node tree (2 * j + 1))
        else node tree j := by
  intro k
  induction k with
  | zero =>
      intro tree' s s' h j
      obtain ⟨rfl, -⟩ := pure_ok.mp h
      rfl
  | succ k ih =>
      intro tree' s s' h j
      rw [hashPairs, List.range_succ, List.foldlM_append] at h
      obtain ⟨tree₁, t, hrun, h⟩ := bind_ok.mp h
      have ih := ih hrun
      rw [List.foldlM_cons] at h
      obtain ⟨tree₂, t₂, hround, hend⟩ := bind_ok.mp h
      obtain ⟨rfl, -⟩ := pure_ok.mp hend
      obtain ⟨pair, t₁, hpeek, hpoke⟩ := bind_ok.mp hround
      obtain ⟨-, rfl⟩ := peek_ok hpeek
      -- The two nodes lie at or behind the place of their hash, so they are still there.
      have hpair : slice tree₁ (32 * (2 * k)) 64 = node tree (2 * k) ++ node tree (2 * k + 1) := by
        rw [show 64 = 32 + 32 from rfl, slice_add,
          show 32 * (2 * k) + 32 = 32 * (2 * k + 1) by omega]
        have h₀ := ih (2 * k)
        have h₁ := ih (2 * k + 1)
        rw [if_neg (by omega)] at h₀ h₁
        exact congrArg₂ _ h₀ h₁
      rw [node_poke (Vector.length_toList) hpoke, hpair, ih]
      split
      · next hjk =>
          rw [if_pos (by omega), hjk]
          rfl
      · next hjk =>
          split
          · next hlt => rw [if_pos (by omega)]
          · next hlt => rw [if_neg (by omega)]

theorem foldTree_ok {sha256d : Bytes → Hash} :
    ∀ {fuel n : Nat} {tree tree' : Bytes} {s s' : GbtState}, 1 ≤ n → n ≤ fuel →
      foldTree sha256d fuel n tree s = .ok tree' s' →
      treeRoot (pairHash sha256d) ((List.range n).map (node tree)) = some (node tree' 0) := by
  intro fuel
  induction fuel with
  | zero =>
      intro n tree tree' s s' hn hfuel
      omega
  | succ fuel ih =>
      intro n tree tree' s s' hn hfuel h
      rw [foldTree] at h
      split at h
      · next hmore =>
          obtain ⟨padded, t₁, hpad, h⟩ := bind_ok.mp h
          obtain ⟨hashed, t₂, hhash, h⟩ := bind_ok.mp h
          rw [← ih (by omega) (by omega) h]
          refine (treeRoot_step (pairHash sha256d) hmore fun j hj => ?_).symm
          rw [hashPairs_ok hhash, if_pos hj, padLevel_ok hn hpad (by omega),
            padLevel_ok hn hpad (by omega), Nat.min_eq_left (by omega)]
      · next hone =>
          obtain ⟨rfl, -⟩ := pure_ok.mp h
          rw [show n = 1 by omega, List.range_one, List.map_singleton, treeRoot]

/-! ## The leaves and the transactions -/

theorem merkleLeaf_ok {sha256d : Bytes → Hash} {heap : Nat → UInt8} {segwit : Bool}
    {old leaf : Bytes} {tx : Json} {s s' : GbtState} (hold : old.length = 32)
    (h : merkleLeaf sha256d heap segwit old tx s = .ok leaf s') :
    LeafOf sha256d segwit tx leaf ∧ leaf.length = 32 := by
  rw [merkleLeaf] at h
  rw [LeafOf]
  cases segwit with
  | true =>
      rw [if_pos rfl] at h ⊢
      cases htxid : jsonStringValue (jsonObjectGet (some tx) "txid") with
      | none =>
          rw [htxid] at h
          exact absurd h throw_ok
      | some txid =>
          rw [htxid] at h
          simp only at h
          rcases hhex : hex2bin old (some txid) 32 with ⟨_ | _, out⟩
          · rw [hhex] at h
            exact absurd h throw_ok
          · rw [hhex] at h
            obtain ⟨rfl, -⟩ := pure_ok.mp h
            obtain ⟨p, hp, hfit⟩ := unhex_of_hex2bin (congrArg Prod.fst hhex)
            rw [hex2bin_unhex hp hold hfit] at hhex
            obtain rfl : p ++ List.replicate (32 - p.length) 0 = out := congrArg Prod.snd hhex
            refine ⟨⟨txid, p, rfl, hp, rfl⟩, ?_⟩
            rw [memrev, List.length_reverse, List.length_append, List.length_replicate]
            omega
  | false =>
      rw [if_neg Bool.false_ne_true] at h ⊢
      cases hhex : txHex tx with
      | none =>
          rw [hhex] at h
          exact absurd h throw_ok
      | some hex =>
          rw [hhex] at h
          simp only at h
          rcases hbin : hex2bin (malloc heap (hex.length / 2)) (some hex) (hex.length / 2)
            with ⟨_ | _, out⟩
          · rw [hbin] at h
            exact absurd h throw_ok
          · rw [hbin] at h
            obtain ⟨rfl, -⟩ := pure_ok.mp h
            obtain ⟨p, hp, hfit⟩ := unhex_of_hex2bin (congrArg Prod.fst hbin)
            have hlen := length_of_unhex hp
            rw [hex2bin_unhex hp (by simp [malloc]) hfit,
              show hex.length / 2 - p.length = 0 by omega] at hbin
            obtain rfl : p = out := by simpa using congrArg Prod.snd hbin
            exact ⟨⟨hex, p, rfl, hp, rfl⟩, Vector.length_toList⟩

/-- One round of the loop over the transactions, as it stands in `merkleRoot`. -/
def leafRound (sha256d : Bytes → Hash) (cfg : GbtConfig) (val : Option Json) (capacity : Nat)
    (tree : Bytes) : Json × Nat → GbtM Bytes := fun (tx, i) => do
  let old ← peek tree (32 * (1 + i)) 32
  let leaf ← merkleLeaf sha256d cfg.heap (segwit val) old tx
  let tree ← poke tree (32 * (1 + i)) leaf
  if !mutableHas val "submit/coinbase" then appendTx capacity (txHex tx)
  pure tree

theorem leafRound_ok {sha256d : Bytes → Hash} {cfg : GbtConfig} {val : Option Json}
    {capacity i : Nat} {tx : Json} {tree tree' : Bytes} {s s' : GbtState}
    (h : leafRound sha256d cfg val capacity tree (tx, i) s = .ok tree' s') :
    ∃ leaf, LeafOf sha256d (segwit val) tx leaf ∧
      (∀ j, node tree' j = if j = 1 + i then leaf else node tree j) ∧
      s'.work.txs = s.work.txs.map (· ++ copiedTx val tx) := by
  rw [leafRound] at h
  obtain ⟨old, t₁, hpeek, h₁⟩ := bind_ok.mp h
  obtain ⟨leaf, t₂, hleaf, h₂⟩ := bind_ok.mp h₁
  obtain ⟨tree₁, t₃, hpoke, h₃⟩ := bind_ok.mp h₂
  obtain rfl := ((stateless_peek _ _ _).ok_state hpeek).1
  obtain rfl := ((stateless_merkleLeaf _ _ _ _ _).ok_state hleaf).1
  obtain rfl := ((stateless_poke _ _ _).ok_state hpoke).1
  obtain ⟨hfit, rfl⟩ := peek_ok hpeek
  obtain ⟨hof, hlen⟩ := merkleLeaf_ok (by
    rw [slice, List.length_take, List.length_drop]
    omega) hleaf
  refine ⟨leaf, hof, ?_⟩
  rw [copiedTx]
  cases hmutable : mutableHas val "submit/coinbase" with
  | true =>
      rw [hmutable] at h₃
      obtain ⟨rfl, rfl⟩ := pure_ok.mp h₃
      exact ⟨node_poke hlen hpoke, by simp⟩
  | false =>
      rw [hmutable] at h₃
      obtain ⟨_, t₄, happend, hend⟩ := bind_ok.mp h₃
      obtain ⟨rfl, rfl⟩ := pure_ok.mp hend
      obtain ⟨txs, hex, htxs, hhex, rfl⟩ := appendTx_ok happend
      exact ⟨node_poke hlen hpoke, by simp [htxs, hhex]⟩

/-- The loop, from the leaf `k + 1` on: it writes its leaves, keeps those in
front of them, and copies the data. -/
theorem leaves_ok {sha256d : Bytes → Hash} {cfg : GbtConfig} {val : Option Json}
    {capacity : Nat} :
    ∀ {txa : List Json} {k : Nat} {tree tree' : Bytes} {s s' : GbtState},
      (txa.zipIdx k).foldlM (leafRound sha256d cfg val capacity) tree s = .ok tree' s' →
      (∀ j ≤ k, node tree' j = node tree j) ∧
        List.Forall₂ (LeafOf sha256d (segwit val)) txa
          ((List.range txa.length).map fun i => node tree' (k + i + 1)) ∧
        s'.work.txs = s.work.txs.map (· ++ txa.flatMap (copiedTx val))
  | [], k, tree, tree', s, s', h => by
      obtain ⟨rfl, rfl⟩ := pure_ok.mp h
      exact ⟨fun _ _ => rfl, .nil, by simp⟩
  | tx :: txa, k, tree, tree', s, s', h => by
      rw [List.zipIdx_cons, List.foldlM_cons] at h
      obtain ⟨tree₁, t, hround, hrest⟩ := bind_ok.mp h
      obtain ⟨leaf, hleaf, hnode, htx⟩ := leafRound_ok hround
      obtain ⟨hkeep, hleaves, htxs⟩ := leaves_ok hrest
      refine ⟨fun j hj => ?_, ?_, ?_⟩
      · rw [hkeep j (by omega), hnode, if_neg (by omega)]
      · rw [List.length_cons, List.range_succ_eq_map, List.map_cons, List.map_map]
        refine .cons ?_ ?_
        · rw [hkeep _ (by omega), hnode, if_pos (by omega)]
          exact hleaf
        · have hshift : (fun i => node tree' (k + i + 1)) ∘ Nat.succ =
              fun i => node tree' (k + 1 + i + 1) := by
            funext i
            rw [Function.comp_apply, show k + i.succ + 1 = k + 1 + i + 1 by omega]
          rw [hshift]
          exact hleaves
      · rw [htxs, htx, Option.map_map, List.flatMap_cons]
        congr 1
        funext txs
        rw [Function.comp_apply, List.append_assoc]

theorem merkleRoot_ok {sha256d : Bytes → Hash} {cfg : GbtConfig} {val : Option Json}
    {txa : List Json} {txSize : Int} {size : Nat} {cbtx root : Bytes} {s s' : GbtState}
    (h : merkleRoot sha256d cfg val txa txSize cbtx size s = .ok root s') :
    ∃ leaves, List.Forall₂ (LeafOf sha256d (segwit val)) txa leaves ∧
      treeRoot (pairHash sha256d) ((sha256d (slice cbtx 0 size)).toList :: leaves) = some root ∧
      root.length = 32 ∧ s'.work.txs = some (blockTransactions val txa (slice cbtx 0 size)) := by
  rw [merkleRoot] at h
  obtain ⟨capacity, t₀, -, h₀⟩ := bind_ok.mp h
  obtain ⟨cbtx₀, t₁, hpeek₀, h₁⟩ := bind_ok.mp h₀
  obtain ⟨-, rfl⟩ := peek_ok hpeek₀
  obtain ⟨_, t₂, htxs, h₂⟩ := bind_ok.mp h₁
  obtain ⟨treeSize, t₂', hmalloc, h₂⟩ := bind_ok.mp h₂
  obtain ⟨tree, t₃, hpoke, h₃⟩ := bind_ok.mp h₂
  obtain ⟨tree₁, t₄, hloop, h₄⟩ := bind_ok.mp h₃
  obtain ⟨tree₂, t₅, hfold, hpeek⟩ := bind_ok.mp h₄
  rw [foldMerkleTree_eq] at hfold
  obtain ⟨hkeep, hleaves, htxs'⟩ := leaves_ok (k := 0) hloop
  obtain ⟨hfit, rfl⟩ := peek_ok hpeek
  have hfirst : node tree₁ 0 = (sha256d (slice cbtx 0 size)).toList := by
    rw [hkeep 0 (Nat.le_refl 0), node_poke (i := 0) Vector.length_toList hpoke, if_pos rfl]
  have hroot := foldTree_ok (by omega) (Nat.le_refl _) hfold
  have hrange : (List.range (1 + txa.length)).map (node tree₁) =
      (sha256d (slice cbtx 0 size)).toList ::
        (List.range txa.length).map fun i => node tree₁ (0 + i + 1) := by
    rw [Nat.add_comm, List.range_succ_eq_map, List.map_cons, List.map_map, hfirst]
    simp only [Nat.zero_add]
    rfl
  refine ⟨_, hleaves, ?_, ?_, ?_⟩
  · rw [← hrange, hroot]
    rfl
  · rw [slice, List.length_take, List.length_drop]
    omega
  · obtain rfl := ((stateless_foldTree _ _ _ _).ok_state hfold).1
    obtain rfl := ((stateless_peek _ _ _).ok_state hpeek).1
    obtain rfl := ((stateless_poke _ _ _).ok_state hpoke).1
    obtain rfl := ((stateless_mallocInt _).ok_state hmalloc).1
    rw [htxs', beginTxs_ok htxs]
    rfl

/-! ## The fields and the header -/

theorem binaryField_value {heap : Nat → UInt8} {val : Option Json} {key log : String} {n : Nat}
    {buf hexstr : Bytes} {s s' : GbtState} (h : binaryField heap val key log n s = .ok buf s')
    (hstr : jsonStringValue (jsonObjectGet val key) = some hexstr)
    (hlen : hexstr.length = 2 * n) : unhex hexstr = some buf ∧ buf.length = n := by
  have hbin : jobjBinary val key (malloc heap n) n = hex2bin (malloc heap n) (some hexstr) n := by
    rw [jobjBinary]
    cases hj : jsonObjectGet val key with
    | none =>
        rw [hj] at hstr
        cases hstr
    | some j =>
        rw [hj] at hstr
        simp only [hstr]
  rw [binaryField] at h
  rw [hbin] at h
  rcases hrun : hex2bin (malloc heap n) (some hexstr) n with ⟨_ | _, out⟩
  · rw [hrun] at h
    exact absurd h throw_ok
  · rw [hrun] at h
    obtain ⟨rfl, -⟩ := pure_ok.mp h
    obtain ⟨p, hp, hfit⟩ := unhex_of_hex2bin (congrArg Prod.fst hrun)
    have hplen := length_of_unhex hp
    rw [hex2bin_unhex hp (by simp [malloc]) hfit, show n - p.length = 0 by omega] at hrun
    obtain rfl : p = out := by simpa using congrArg Prod.snd hrun
    exact ⟨hp, by omega⟩

theorem fields_values {cfg : GbtConfig} {val : Option Json} {prevhash bits : Bytes}
    {s s' : GbtState} {f : Fields} (h : fields cfg val s = .ok f s')
    (hprevhash : jsonStringValue (jsonObjectGet val "previousblockhash") = some prevhash)
    (hprevhash64 : prevhash.length = 64)
    (hbits : jsonStringValue (jsonObjectGet val "bits") = some bits)
    (hbits8 : bits.length = 8) :
    ∃ version curtime, integerOf val "version" = some version ∧
      integerOf val "curtime" = some curtime ∧ f.version = .ofInt version ∧
      f.curtime = .ofInt curtime ∧ unhex prevhash = some f.prevhash ∧ f.prevhash.length = 32 ∧
      unhex bits = some f.bits ∧ f.bits.length = 4 := by
  rw [fields] at h
  obtain ⟨_, _, -, h⟩ := bind_ok.mp h
  obtain ⟨_, _, -, h⟩ := bind_ok.mp h
  obtain ⟨version, _, hversion, h⟩ := bind_ok.mp h
  obtain ⟨p, _, hp, h⟩ := bind_ok.mp h
  obtain ⟨_, _, -, h⟩ := bind_ok.mp h
  obtain ⟨curtime, _, hcurtime, h⟩ := bind_ok.mp h
  obtain ⟨b, _, hb, h⟩ := bind_ok.mp h
  obtain ⟨_, _, -, h⟩ := bind_ok.mp h
  obtain ⟨_, _, -, h⟩ := bind_ok.mp h
  obtain ⟨rfl, -⟩ := pure_ok.mp h
  obtain ⟨hp, hplen⟩ := binaryField_value hp hprevhash hprevhash64
  obtain ⟨hb, hblen⟩ := binaryField_value hb hbits hbits8
  exact ⟨version, curtime, integerField_isSome hversion, integerField_isSome hcurtime, rfl, rfl,
    hp, hplen, hb, hblen⟩

theorem readTarget_ok {cfg : GbtConfig} {val : Option Json} {target : Bytes} {s s' : GbtState}
    {u : Unit} (h : readTarget cfg val s = .ok u s')
    (htarget : jsonStringValue (jsonObjectGet val "target") = some target)
    (htarget64 : target.length = 64) :
    s'.work.data = s.work.data ∧ s'.work.txs = s.work.txs ∧
      wordsValue s'.work.target.toList = hexNumber target := by
  rw [readTarget] at h
  obtain ⟨t, s₁, ht, hwrite⟩ := bind_ok.mp h
  obtain rfl := ((stateless_binaryField _ _ _ _ _).ok_state ht).1
  obtain ⟨hunhex, hlen⟩ := binaryField_value ht htarget htarget64
  rw [modify_ok.mp hwrite]
  refine ⟨rfl, rfl, ?_⟩
  have hwords : (Vector.ofFn fun i : Fin 8 => be32dec (slice t (4 * (7 - i.val)) 4)).toList =
      (List.finRange 8).map fun i : Fin 8 => be32dec (slice t (4 * (7 - i.val)) 4) := by
    rw [Vector.toList_ofFn, List.ofFn_eq_map]
  have hchunk : ∀ i : Fin 8, le32enc (be32dec (slice t (4 * (7 - i.val)) 4)) =
      (slice t (4 * (8 - 1 - i.val)) 4).reverse :=
    fun i => le32enc_be32dec (length_chunk (n := 8) hlen (by omega))
  rw [hexNumber_eq hunhex, ← leValue_flatMap_le32enc]
  simp only
  rw [hwords, List.flatMap_map, funext hchunk, flatMap_slice_reverse (n := 8) hlen]

end Gbt

/-- The words that a template's header is put together from, written out. -/
theorem headerBytes_template {prevhash root bits : Bytes} (version curtime : UInt32)
    (hprevhash : prevhash.length = 32) (hroot : root.length = 32) (hbits : bits.length = 4) :
    headerBytes (headerWords (swab32 version)
        (fun i => le32dec (slice prevhash (4 * (7 - i.val)) 4)) root (swab32 curtime)
        (le32dec bits)) =
      consensusHeader version prevhash root curtime bits := by
  have hchunk : ∀ i : Fin 8, be32enc (le32dec (slice prevhash (4 * (7 - i.val)) 4)) =
      (slice prevhash (4 * (8 - 1 - i.val)) 4).reverse :=
    fun i => be32enc_le32dec (length_chunk (n := 8) hprevhash (by omega))
  have hprev : ((List.finRange 8).map fun i : Fin 8 =>
      le32dec (slice prevhash (4 * (7 - i.val)) 4)).flatMap be32enc = prevhash.reverse := by
    rw [List.flatMap_map, funext hchunk, flatMap_slice_reverse (n := 8) hprevhash]
  rw [headerBytes_eq_front, headerFront, headerWords_front, List.flatMap_cons,
    List.flatMap_append, List.flatMap_append, hprev, flatMap_be32enc_be32dec hroot,
    be32enc_swab32]
  simp only [List.flatMap_cons, List.flatMap_nil, List.append_nil, be32enc_swab32,
    be32enc_le32dec hbits, List.append_assoc, consensusHeader, headerWords_nonce]
  rfl

variable {sha256d : Bytes → Hash} {cfg : GbtConfig} {val : Option Json}
  {prevhash bits target : Bytes} {s s' : GbtState}

/-- On a template with digits enough the miner hashes the header that the
network will check, over the block it will be sent, against the target that the
template names. -/
theorem template_header (h : gbtWorkDecode sha256d cfg val s = .ok () s')
    (hprevhash : jsonStringValue (jsonObjectGet val "previousblockhash") = some prevhash)
    (hprevhash64 : prevhash.length = 64)
    (hbits : jsonStringValue (jsonObjectGet val "bits") = some bits)
    (hbits8 : bits.length = 8)
    (htarget : jsonStringValue (jsonObjectGet val "target") = some target)
    (htarget64 : target.length = 64) :
    ∃ version curtime p b txa cbtx leaves root,
      integerOf val "version" = some version ∧ integerOf val "curtime" = some curtime ∧
      unhex prevhash = some p ∧ unhex bits = some b ∧
      jsonObjectGet val "transactions" = some (.array txa) ∧
      s'.work.txs = some (blockTransactions val txa cbtx) ∧
      List.Forall₂ (LeafOf sha256d (Gbt.segwit val)) txa leaves ∧
      treeRoot (pairHash sha256d) ((sha256d cbtx).toList :: leaves) = some root ∧
      headerBytes s'.work.data =
        consensusHeader (.ofInt version) p root (.ofInt curtime) b ∧
      wordsValue s'.work.target.toList = hexNumber target := by
  rw [gbtWorkDecode] at h
  obtain ⟨f, t₁, hfields, h₁⟩ := bind_ok.mp h
  obtain ⟨⟨cbtx, size⟩, t₂, -, h₂⟩ := bind_ok.mp h₁
  obtain ⟨root, t₃, hroot, h₃⟩ := bind_ok.mp h₂
  obtain ⟨_, t₄, hheader, h₄⟩ := bind_ok.mp h₃
  obtain ⟨_, t₅, hread, h₅⟩ := bind_ok.mp h₄
  obtain ⟨version, curtime, hversion, hcurtime, hfv, hfc, hp, hplen, hb, hblen⟩ :=
    Gbt.fields_values hfields hprevhash hprevhash64 hbits hbits8
  obtain ⟨leaves, hleaves, htree, hrootlen, htxs⟩ := Gbt.merkleRoot_ok hroot
  obtain ⟨hdata, htxs₅, hvalue⟩ := Gbt.readTarget_ok hread htarget htarget64
  -- Nothing behind the target touches the words or the transactions.
  have hkeep : Keeps (fun s : GbtState => (s.work.data, s.work.txs, s.work.target))
      (Gbt.readWorkid val >>= fun _ => Gbt.longPolling cfg val) :=
    (Gbt.keeps_readWorkid (fun _ _ => rfl) val).bind fun _ =>
      Gbt.keeps_longPolling (fun _ _ => rfl) cfg val
  obtain ⟨hdata', hrest⟩ := Prod.mk.inj (hkeep t₅ () s' h₅)
  obtain ⟨htxs', htarget'⟩ := Prod.mk.inj hrest
  rw [Gbt.assembleHeader] at hheader
  split at hheader
  · exact absurd hheader throw_ok
  · have ht₄ := modify_ok.mp hheader
    refine ⟨version, curtime, f.prevhash, f.bits, f.txa, _, leaves, root, hversion, hcurtime,
      hp, hb, (Gbt.fields_accepted hfields).2, ?_, hleaves, htree, ?_, ?_⟩
    · rw [htxs', htxs₅, ht₄]
      exact htxs
    · rw [hdata', hdata, ht₄]
      rw [headerBytes_template _ _ hplen hrootlen hblen, hfv, hfc]
    · rw [htarget', hvalue]

/-- Every string of the sample is a row of one digit. -/
theorem template_header_sample :
    ∃ version curtime p b txa cbtx leaves root,
      integerOf (some sampleTemplate) "version" = some version ∧
      integerOf (some sampleTemplate) "curtime" = some curtime ∧
      unhex (List.replicate 64 49) = some p ∧ unhex (List.replicate 8 49) = some b ∧
      jsonObjectGet (some sampleTemplate) "transactions" = some (.array txa) ∧
      sampleFilled.work.txs = some (blockTransactions (some sampleTemplate) txa cbtx) ∧
      List.Forall₂ (LeafOf sampleHash (Gbt.segwit (some sampleTemplate))) txa leaves ∧
      treeRoot (pairHash sampleHash) ((sampleHash cbtx).toList :: leaves) = some root ∧
      headerBytes sampleFilled.work.data =
        consensusHeader (.ofInt version) p root (.ofInt curtime) b ∧
      wordsValue sampleFilled.work.target.toList = hexNumber (List.replicate 64 102) :=
  template_header sampleFilled_ok rfl (by decide) rfl (by decide) rfl (by decide)

end AlphaMiner
