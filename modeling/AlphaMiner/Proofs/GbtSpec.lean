import AlphaMiner.Lib.Stop
import AlphaMiner.Model.GbtWork

/-!
# What a decoded template leaves in the record

`gbt_work_decode` succeeds only at the end of a long road, and most of what it
does on the way concerns the transactions. Two facts about a record it has
filled are needed elsewhere: that its transactions are there, which sends a
submission down the `submitblock` branch, and what its time word and its seed
are made of. Both are set once and kept by every later stage, so the proof is
the stages in order, each either taken apart or skipped by a `Keeps` lemma.
-/

namespace AlphaMiner

open Lib

theorem headerWords_getElem (version : UInt32) (prevhash : Fin 8 → UInt32)
    (root : Bytes) (ntime nbits : UInt32) (i : Nat) (hi : i < 32) :
    (headerWords version prevhash root ntime nbits)[i] =
      if i = 0 then version
      else if h : 1 ≤ i ∧ i < 9 then prevhash ⟨i - 1, by omega⟩
      else if 9 ≤ i ∧ i < 17 then be32dec (slice root (4 * (i - 9)) 4)
      else if i = 17 then ntime
      else if i = 18 then nbits
      else if i = 20 then 0x80000000
      else if i = 31 then 0x00000280
      else 0 := by
  simp [headerWords]

/-- The words in front of the nonce, piece by piece. -/
theorem headerWords_front (version : UInt32) (prevhash : Fin 8 → UInt32)
    (root : Bytes) (ntime nbits : UInt32) :
    (headerWords version prevhash root ntime nbits).toList.take 19 =
      version :: ((List.finRange 8).map prevhash ++
        ((List.finRange 8).map fun j : Fin 8 => be32dec (slice root (4 * j.val) 4)) ++
        [ntime, nbits]) := by
  apply List.ext_getElem
  · simp
  · intro i h₁ h₂
    have hi : i < 19 := by simpa using h₁
    rw [List.getElem_take, Vector.getElem_toList, headerWords_getElem]
    rcases Nat.eq_zero_or_pos i with rfl | hpos
    · simp
    · obtain ⟨j, rfl⟩ : ∃ j, i = j + 1 := ⟨i - 1, by omega⟩
      rw [List.getElem_cons_succ, if_neg (by omega)]
      rcases Nat.lt_or_ge j 8 with hj | hj
      · have hj' : j + 1 < 9 := by omega
        simp [hj, hj']
      · rw [dif_neg (by omega)]
        rcases Nat.lt_or_ge j 16 with hj' | hj'
        · obtain ⟨k, rfl⟩ : ∃ k, j = k + 8 := ⟨j - 8, by omega⟩
          rw [if_pos (by omega), show k + 8 + 1 - 9 = k by omega]
          simp [show k < 8 by omega]
        · obtain rfl | rfl : j = 16 ∨ j = 17 := by omega
          · simp
          · simp

@[simp] theorem headerWords_ntime (version : UInt32) (prevhash : Fin 8 → UInt32)
    (root : Bytes) (ntime nbits : UInt32) :
    timeWord (headerWords version prevhash root ntime nbits) = ntime := by
  simp [timeWord, headerWords_getElem]

@[simp] theorem headerWords_nonce (version : UInt32) (prevhash : Fin 8 → UInt32)
    (root : Bytes) (ntime nbits : UInt32) :
    nonceWord (headerWords version prevhash root ntime nbits) = 0 := by
  simp [nonceWord, headerWords_getElem]

namespace Gbt

theorem integerField_ok {val : Option Json} {key log : String} {s s' : GbtState} {i : Int}
    (h : integerField val key log s = .ok i s') :
    jsonObjectGet val key = some (.integer i) ∧ s' = s := by
  rw [integerField] at h
  cases hj : jsonObjectGet val key with
  | none =>
      rw [hj] at h
      exact absurd h throw_ok
  | some j =>
      rw [hj] at h
      cases j with
      | integer j =>
          obtain ⟨rfl, rfl⟩ := pure_ok.mp h
          exact ⟨rfl, rfl⟩
      | _ => exact absurd h throw_ok

theorem fields_ok {cfg : GbtConfig} {val : Option Json} {s s' : GbtState} {f : Fields}
    (h : fields cfg val s = .ok f s') :
    ∃ epochDuration curtime : Int,
      jsonObjectGet val "rx_epoch_duration" = some (.integer epochDuration) ∧
      jsonObjectGet val "curtime" = some (.integer curtime) ∧
      f.epochDuration = .ofInt epochDuration ∧ f.curtime = .ofInt curtime := by
  rw [fields] at h
  obtain ⟨_, _, -, h⟩ := bind_ok.mp h
  obtain ⟨_, _, -, h⟩ := bind_ok.mp h
  obtain ⟨_, _, -, h⟩ := bind_ok.mp h
  obtain ⟨_, _, -, h⟩ := bind_ok.mp h
  obtain ⟨epochDuration, _, hepoch, h⟩ := bind_ok.mp h
  obtain ⟨curtime, _, hcurtime, h⟩ := bind_ok.mp h
  obtain ⟨_, _, -, h⟩ := bind_ok.mp h
  obtain ⟨_, _, -, h⟩ := bind_ok.mp h
  obtain ⟨_, _, -, h⟩ := bind_ok.mp h
  obtain ⟨rfl, -⟩ := pure_ok.mp h
  exact ⟨epochDuration, curtime, (integerField_ok hepoch).1, (integerField_ok hcurtime).1,
    rfl, rfl⟩

theorem poke_ok {buf bs out : Bytes} {off : Nat} {s s' : GbtState}
    (h : poke buf off bs s = .ok out s') :
    off + bs.length ≤ buf.length ∧ out = store buf off bs := by
  rw [poke] at h
  cases hstore : store? buf off bs with
  | none =>
      rw [hstore] at h
      exact absurd h throw_ok
  | some buf' =>
      rw [hstore] at h
      obtain ⟨rfl, -⟩ := pure_ok.mp h
      rw [store?] at hstore
      split at hstore
      · next hfit =>
          cases hstore
          exact ⟨hfit, rfl⟩
      · cases hstore

theorem peek_ok {buf bs : Bytes} {off n : Nat} {s s' : GbtState}
    (h : peek buf off n s = .ok bs s') : off + n ≤ buf.length ∧ bs = slice buf off n := by
  rw [peek] at h
  cases hslice : slice? buf off n with
  | none =>
      rw [hslice] at h
      exact absurd h throw_ok
  | some bs' =>
      rw [hslice] at h
      obtain ⟨rfl, -⟩ := pure_ok.mp h
      rw [slice?] at hslice
      split at hslice
      · next hfit =>
          cases hslice
          exact ⟨hfit, rfl⟩
      · cases hslice

/-! ## The extra script data in two parts

The tail is moved and the length set, and then the gap is filled. -/

/-- The push that the extra data needs, and the data. -/
def writeExtra (pushLen : Nat) (xsig : Bytes) (ssigEnd : Nat) (cbtx : Bytes) : GbtM Bytes :=
  if pushLen = 2 then
    poke cbtx ssigEnd [0x4c] >>= fun cbtx =>
      poke cbtx (ssigEnd + 1) [UInt8.ofNat xsig.length] >>= fun cbtx =>
        poke cbtx (ssigEnd + 2) xsig
  else if pushLen ≠ 0 then
    poke cbtx ssigEnd [UInt8.ofNat xsig.length] >>= fun cbtx => poke cbtx (ssigEnd + 1) xsig
  else poke cbtx ssigEnd xsig

/-- Room for the data, and the data. -/
def insertExtra (scriptLen : UInt8) (pushLen : Nat) (xsig cbtx : Bytes) (size : Nat) :
    GbtM (Bytes × Nat) :=
  let ssigEnd := 42 + scriptLen.toNat
  let n := xsig.length + pushLen
  if size < ssigEnd then throw .fault
  else
    peek cbtx ssigEnd (size - ssigEnd) >>= fun tail =>
      poke cbtx (ssigEnd + n) tail >>= fun cbtx =>
        poke cbtx 41 [scriptLen + UInt8.ofNat n] >>= fun cbtx =>
          writeExtra pushLen xsig ssigEnd cbtx >>= fun cbtx => pure (cbtx, size + n)

theorem appendCoinbase_eq (cfg : GbtConfig) (val : Option Json) (cbtx : Bytes) (size : Nat) :
    appendCoinbase cfg val cbtx size =
      peek cbtx 41 1 >>= fun script =>
        let scriptLen := script.headD 0
        let xsig := coinbaseExtra cfg val scriptLen.toNat
        if xsig.length = 0 then pure (cbtx, size)
        else insertExtra scriptLen (if scriptLen.toNat + xsig.length < 76 then 1
          else if scriptLen.toNat + 2 + xsig.length > 100 then 0 else 2) xsig cbtx size := by
  rw [appendCoinbase]
  refine bind_congr fun script => ?_
  extract_lets scriptLen len xsig ssigEnd pushLen n ssigEnd₁ ssigEnd₂ jp₂ jp₁ jp xsig'
  refine if_congr Iff.rfl rfl ?_
  unfold insertExtra
  extract_lets ssigEnd' n'
  refine if_congr Iff.rfl rfl ?_
  refine bind_congr fun tail => bind_congr fun cbtx => bind_congr fun cbtx => ?_
  show _ = writeExtra pushLen xsig ssigEnd cbtx >>= fun cbtx => pure (cbtx, size + n)
  rw [writeExtra]
  by_cases htwo : pushLen = 2
  · have hpush : pushLen ≠ 0 := by omega
    rw [if_pos htwo, if_pos htwo]
    simp only [jp₁, jp₂, ssigEnd₂, ssigEnd₁, if_pos htwo, if_pos hpush, bind_assoc]
  · by_cases hpush : pushLen ≠ 0
    · rw [if_neg htwo, if_neg htwo, if_pos hpush]
      simp only [jp₁, jp₂, ssigEnd₂, ssigEnd₁, if_neg htwo, if_pos hpush, bind_assoc, pure_bind]
    · rw [if_neg htwo, if_neg htwo, if_neg hpush]
      simp only [jp₁, jp₂, ssigEnd₂, ssigEnd₁, if_neg htwo, if_neg hpush, pure_bind]
/-! ## Stages that do not look at the state -/

theorem stateless_poke (buf : Bytes) (off : Nat) (bs : Bytes) : Stateless (poke buf off bs) := by
  rw [poke]
  split
  · exact .pure _
  · exact .throw _

theorem stateless_peek (buf : Bytes) (off n : Nat) : Stateless (peek buf off n) := by
  rw [peek]
  split
  · exact .pure _
  · exact .throw _

theorem stateless_integerField (val : Option Json) (key log : String) :
    Stateless (integerField val key log) := by
  rw [integerField]
  split
  · exact .pure _
  · exact .throw _

theorem stateless_binaryField (heap : Nat → UInt8) (val : Option Json) (key log : String)
    (n : Nat) : Stateless (binaryField heap val key log n) := by
  rw [binaryField]
  split
  · exact .pure _
  · exact .throw _

theorem stateless_transactions (val : Option Json) : Stateless (transactions val) := by
  rw [transactions]
  split
  · exact .pure _
  · exact .throw _

theorem stateless_txSizes (txa : List Json) : Stateless (txSizes txa) := by
  refine Stateless.foldlM (fun size tx => ?_) _ _
  split
  · exact .pure _
  · exact .throw _

theorem stateless_padLevel (n : Nat) (tree : Bytes) : Stateless (padLevel n tree) := by
  rw [padLevel]
  split
  · exact (stateless_peek _ _ _).bind fun _ => stateless_poke _ _ _
  · exact .pure _

theorem stateless_hashPairs (sha256d : Bytes → Hash) (n : Nat) (tree : Bytes) :
    Stateless (hashPairs sha256d n tree) :=
  .foldlM (fun _ _ => (stateless_peek _ _ _).bind fun _ => stateless_poke _ _ _) _ _

theorem stateless_foldTree (sha256d : Bytes → Hash) :
    ∀ (fuel n : Nat) (tree : Bytes), Stateless (foldTree sha256d fuel n tree) := by
  intro fuel
  induction fuel with
  | zero => exact fun _ tree => .pure tree
  | succ fuel ih =>
      intro n tree
      rw [foldTree]
      split
      · exact (stateless_padLevel n tree).bind fun tree =>
          (stateless_hashPairs sha256d _ tree).bind fun tree => ih _ tree
      · exact .pure _

/-- Both loops come to the same levels. -/
theorem foldMerkleTree_eq (sha256d : Bytes → Hash) (fuel n : Nat) (tree : Bytes) :
    foldMerkleTree sha256d fuel n tree = foldTree sha256d fuel n tree := by
  induction fuel generalizing n tree with
  | zero => rfl
  | succ fuel ih =>
      rw [foldMerkleTree, foldTree]
      refine if_congr Iff.rfl ?_ rfl
      rw [padLevel]
      by_cases hodd : n % 2 = 1
      · simp only [if_pos hodd, bind_assoc, pure_bind, ih]
      · simp only [if_neg hodd, pure_bind, ih, show (n + 1) / 2 = n / 2 by omega]

theorem stateless_foldMerkleTree (sha256d : Bytes → Hash) (fuel n : Nat) (tree : Bytes) :
    Stateless (foldMerkleTree sha256d fuel n tree) := by
  rw [foldMerkleTree_eq]
  exact stateless_foldTree sha256d fuel n tree

theorem stateless_mallocInt (bytes : Int) : Stateless (mallocInt bytes) := by
  rw [mallocInt]
  split
  · exact .pure _
  · exact .throw _

theorem stateless_merkleLeaf (sha256d : Bytes → Hash) (heap : Nat → UInt8) (segwit : Bool)
    (old : Bytes) (tx : Json) : Stateless (merkleLeaf sha256d heap segwit old tx) := by
  rw [merkleLeaf]
  repeat' split
  all_goals first
    | exact .pure _
    | exact .throw _

theorem stateless_pushHeight :
    ∀ (fuel : Nat) (n : Int) (cbtx : Bytes) (size : Nat),
      Stateless (pushHeight fuel n cbtx size) := by
  intro fuel
  induction fuel with
  | zero => exact fun _ _ _ => .throw _
  | succ fuel ih =>
      intro n cbtx size
      rw [pushHeight]
      split
      · exact .pure _
      · refine (stateless_poke _ _ _).bind fun cbtx => ?_
        simp only
        split
        · exact (stateless_poke _ _ _).bind fun cbtx => ih _ _ _
        · exact ih _ _ _

theorem stateless_coinbaseHeight (height : Int) (cbtx : Bytes) :
    Stateless (coinbaseHeight height cbtx) := by
  rw [coinbaseHeight]
  split
  · exact (stateless_poke _ _ _).bind fun _ => (stateless_poke _ _ _).bind fun _ => .pure _
  · exact (stateless_pushHeight _ _ _ _).bind fun _ =>
      (stateless_poke _ _ _).bind fun _ => .pure _

theorem stateless_witnessLeaves (txa : List Json) (wtree : Bytes) :
    Stateless (witnessLeaves txa wtree) := by
  refine Stateless.foldlM (fun wtree (tx, i) => ?_) _ _
  simp only
  split
  · exact .throw _
  · refine (stateless_peek _ _ _).bind fun leaf => ?_
    split
    · exact .throw _
    · exact stateless_poke _ _ _

theorem stateless_witnessOutput (sha256d : Bytes → Hash) (txa : List Json) (cbtx : Bytes)
    (size : Nat) : Stateless (witnessOutput sha256d txa cbtx size) :=
  (stateless_poke _ _ _).bind fun _ => (stateless_poke _ _ _).bind fun _ =>
    (stateless_witnessLeaves _ _).bind fun _ => (stateless_foldTree _ _ _ _).bind fun _ =>
      (stateless_poke _ _ _).bind fun _ => (stateless_peek _ _ _).bind fun _ =>
        (stateless_poke _ _ _).bind fun _ => .pure _

theorem stateless_coinbaseValue (val : Option Json) : Stateless (coinbaseValue val) := by
  rw [coinbaseValue]
  split
  · exact .pure _
  · exact .pure _
  · exact .throw _

theorem stateless_serverCoinbase (cfg : GbtConfig) (coinbasetxn : Json) :
    Stateless (serverCoinbase cfg coinbasetxn) := by
  rw [serverCoinbase]
  repeat' split
  all_goals first
    | exact .pure _
    | exact .throw _

theorem stateless_writeExtra (pushLen : Nat) (xsig : Bytes) (ssigEnd : Nat) (cbtx : Bytes) :
    Stateless (writeExtra pushLen xsig ssigEnd cbtx) := by
  rw [writeExtra]
  split
  · exact (stateless_poke _ _ _).bind fun _ =>
      (stateless_poke _ _ _).bind fun _ => stateless_poke _ _ _
  · split
    · exact (stateless_poke _ _ _).bind fun _ => stateless_poke _ _ _
    · exact stateless_poke _ _ _

theorem stateless_insertExtra (scriptLen : UInt8) (pushLen : Nat) (xsig cbtx : Bytes)
    (size : Nat) : Stateless (insertExtra scriptLen pushLen xsig cbtx size) := by
  rw [insertExtra]
  split
  · exact .throw _
  · exact (stateless_peek _ _ _).bind fun _ => (stateless_poke _ _ _).bind fun _ =>
      (stateless_poke _ _ _).bind fun _ => (stateless_writeExtra _ _ _ _).bind fun _ => .pure _

theorem stateless_appendCoinbase (cfg : GbtConfig) (val : Option Json) (cbtx : Bytes)
    (size : Nat) : Stateless (appendCoinbase cfg val cbtx size) := by
  rw [appendCoinbase_eq]
  refine (stateless_peek _ _ _).bind fun script => ?_
  simp only
  split
  · exact .pure _
  · exact stateless_insertExtra _ _ _ _ _

/-- With an address to pay to, the height is all that the coinbase takes from
the record. -/
theorem reads_buildCoinbase {cfg : GbtConfig} (hscript : cfg.pkScriptSize ≠ 0)
    (sha256d : Bytes → Hash) (val : Option Json) (segwit : Bool) (txa : List Json) :
    Reads (fun s : GbtState => s.work.height) (buildCoinbase sha256d cfg val segwit txa) := by
  rw [buildCoinbase]
  rw [if_neg hscript]
  refine (stateless_coinbaseValue _).reads.bind fun cbvalue =>
    (stateless_poke _ _ _).reads.bind fun _ => (stateless_poke _ _ _).reads.bind fun _ =>
      (stateless_poke _ _ _).reads.bind fun _ => (stateless_poke _ _ _).reads.bind fun cbtx =>
        Reads.get_bind (fun s t h => by rw [h]) fun s => ?_
  refine Stateless.reads ((stateless_coinbaseHeight _ _).bind fun (cbtx, size) =>
    (stateless_poke _ _ _).bind fun _ => (stateless_poke _ _ _).bind fun _ =>
      (stateless_poke _ _ _).bind fun _ => (stateless_poke _ _ _).bind fun _ =>
        (stateless_poke _ _ _).bind fun _ => (stateless_poke _ _ _).bind fun _ =>
          (stateless_peek _ _ _).bind fun _ => (stateless_poke _ _ _).bind fun _ => ?_)
  simp only
  split
  · exact (stateless_witnessOutput _ _ _ _).bind fun _ =>
      (stateless_poke _ _ _).bind fun _ => .pure _
  · exact (stateless_poke _ _ _).bind fun _ => .pure _

/-! ## Stages that leave a field alone -/

theorem keeps_readTarget {γ : Type} {view : GbtState → γ}
    (hview : ∀ s target, view { s with work := { s.work with target := target } } = view s)
    (cfg : GbtConfig) (val : Option Json) : Keeps view (readTarget cfg val) :=
  ((stateless_binaryField _ _ _ _ _).keeps view).bind fun _ => Keeps.modify fun s => hview s _

theorem keeps_readWorkid {γ : Type} {view : GbtState → γ}
    (hview : ∀ s workid, view { s with work := { s.work with workid := workid } } = view s)
    (val : Option Json) : Keeps view (readWorkid val) := by
  rw [readWorkid]
  split
  · exact Keeps.pure _
  · exact Keeps.modify fun s => hview s _
  · exact Keeps.throw _

theorem keeps_longPolling {γ : Type} {view : GbtState → γ}
    (hview : ∀ s globals, view { s with globals := globals } = view s)
    (cfg : GbtConfig) (val : Option Json) : Keeps view (longPolling cfg val) := by
  rw [longPolling]
  split
  · refine Keeps.bind (Keeps.modify fun s => hview s _) fun _ =>
      Keeps.bind Keeps.get fun s => ?_
    split
    · exact Keeps.modify fun s => hview s _
    · exact Keeps.pure _
  · exact Keeps.pure _

/-! ## The transactions are there -/

theorem appendTx_ok {capacity : Nat} {hex : Option Bytes} {s s' : GbtState} {u : Unit}
    (h : appendTx capacity hex s = .ok u s') :
    ∃ txs hex', s.work.txs = some txs ∧ hex = some hex' ∧
      s' = { s with work := { s.work with txs := some (txs ++ hex') } } := by
  rw [appendTx] at h
  obtain ⟨_, _, hget, h⟩ := bind_ok.mp h
  cases hget
  cases htxs : s.work.txs with
  | none =>
      rw [htxs] at h
      exact absurd h throw_ok
  | some txs =>
      cases hex with
      | none =>
          rw [htxs] at h
          exact absurd h throw_ok
      | some hex =>
          rw [htxs] at h
          simp only at h
          split at h
          · exact ⟨txs, hex, rfl, rfl, modify_ok.mp h⟩
          · exact absurd h throw_ok

theorem keeps_appendTx (capacity : Nat) (hex : Option Bytes) :
    Keeps (fun s => s.work.txs.isSome) (appendTx capacity hex) := by
  intro s u s' h
  obtain ⟨txs, hex', htxs, -, rfl⟩ := appendTx_ok h
  exact (congrArg Option.isSome htxs).symm

/-- The block holds what is written first, and there is nothing else in it. -/
theorem beginTxs_ok {capacity : Nat} {count cbtx : Bytes} {s s' : GbtState} {u : Unit}
    (h : beginTxs capacity count cbtx s = .ok u s') :
    s' = { s with work := { s.work with txs := some (bin2hex count ++ bin2hex cbtx) } } := by
  rw [beginTxs] at h
  split at h
  · exact modify_ok.mp h
  · exact absurd h throw_ok

theorem merkleRoot_txs {sha256d : Bytes → Hash} {cfg : GbtConfig} {val : Option Json}
    {txa : List Json} {txSize : Int} {size : Nat} {cbtx root : Bytes} {s s' : GbtState}
    (h : merkleRoot sha256d cfg val txa txSize cbtx size s = .ok root s') :
    s'.work.txs.isSome = true := by
  rw [merkleRoot] at h
  obtain ⟨capacity, t₀, -, h⟩ := bind_ok.mp h
  obtain ⟨cbtx, t₁, -, h⟩ := bind_ok.mp h
  obtain ⟨_, t₂, htxs, h⟩ := bind_ok.mp h
  have hsome : t₂.work.txs.isSome = true := by
    rw [beginTxs_ok htxs]
    rfl
  rw [← hsome]
  refine Keeps.bind ((stateless_mallocInt _).keeps fun s => s.work.txs.isSome) (fun treeSize =>
    Keeps.bind ((stateless_poke _ _ _).keeps _) fun tree =>
      Keeps.bind (Keeps.foldlM (fun tree (tx, i) => ?_) _ _) fun tree =>
        ((stateless_foldMerkleTree _ _ _ _).bind fun tree => stateless_peek _ _ _).keeps _)
    t₂ root s' h
  refine Keeps.bind ((stateless_peek _ _ _).keeps _) fun old =>
    Keeps.bind ((stateless_merkleLeaf _ _ _ _ _).keeps _) fun leaf =>
      Keeps.bind ((stateless_poke _ _ _).keeps _) fun tree => ?_
  split
  · exact (keeps_appendTx _ _).bind fun _ => Keeps.pure _
  · exact Keeps.pure _

end Gbt

/-! ## The whole function -/

/-- A filled record carries transactions, and its time word and its seed come
from the `curtime` and the `rx_epoch_duration` of the template. -/
theorem gbtWorkDecode_ok {sha256d : Bytes → Hash} {cfg : GbtConfig} {val : Option Json}
    {s s' : GbtState} (h : gbtWorkDecode sha256d cfg val s = .ok () s') :
    s'.work.txs.isSome = true ∧
      ∃ epochDuration curtime : Int,
        jsonObjectGet val "rx_epoch_duration" = some (.integer epochDuration) ∧
        jsonObjectGet val "curtime" = some (.integer curtime) ∧
        UInt32.ofInt epochDuration ≠ 0 ∧
        timeWord s'.work.data = swab32 (.ofInt curtime) ∧
        s'.work.randomxSeedHash =
          sha256d (epochSeedString (.ofInt curtime / .ofInt epochDuration)) := by
  rw [gbtWorkDecode] at h
  obtain ⟨f, t₁, hf, h⟩ := bind_ok.mp h
  obtain ⟨⟨cbtx, size⟩, t₂, -, h⟩ := bind_ok.mp h
  obtain ⟨root, t₃, hroot, h⟩ := bind_ok.mp h
  obtain ⟨_, t₄, hheader, h⟩ := bind_ok.mp h
  have htxs := Gbt.merkleRoot_txs hroot
  obtain ⟨epochDuration, curtime, hepoch, hcurtime, hfe, hfc⟩ := Gbt.fields_ok hf
  -- Nothing behind the header touches the words, the seed or the transactions.
  have hkeep : Keeps (fun s => (s.work.data, s.work.randomxSeedHash, s.work.txs))
      (Gbt.readTarget cfg val >>= fun _ => Gbt.readWorkid val >>= fun _ =>
        Gbt.longPolling cfg val) :=
    (Gbt.keeps_readTarget (fun _ _ => rfl) cfg val).bind fun _ =>
      (Gbt.keeps_readWorkid (fun _ _ => rfl) val).bind fun _ =>
        Gbt.keeps_longPolling (fun _ _ => rfl) cfg val
  replace hkeep := hkeep t₄ () s' h
  simp only [Prod.mk.injEq] at hkeep
  obtain ⟨hdata, hseed, htxs'⟩ := hkeep
  rw [Gbt.assembleHeader] at hheader
  split at hheader
  · exact absurd hheader throw_ok
  · next hzero =>
      have ht₄ := modify_ok.mp hheader
      have hdata' : s'.work.data = headerWords (swab32 f.version)
          (fun i => le32dec (slice f.prevhash (4 * (7 - i.val)) 4)) root
          (swab32 f.curtime) (le32dec f.bits) := by
        rw [hdata, ht₄]
      have hseed' : s'.work.randomxSeedHash =
          sha256d (epochSeedString (f.curtime / f.epochDuration)) := by
        rw [hseed, ht₄]
      have htxs₄ : t₄.work.txs = t₃.work.txs := by
        rw [ht₄]
      refine ⟨?_, epochDuration, curtime, hepoch, hcurtime, ?_, ?_, ?_⟩
      · rw [htxs', htxs₄]
        exact htxs
      · rwa [← hfe]
      · rw [hdata', headerWords_ntime, hfc]
      · rw [hseed', hfc, hfe]

/-! ## A template

The smallest reply the function accepts: no transactions, and a coinbase from
the server. -/

def sampleTemplate : Json := .object
  [("height", .integer 100), ("version", .integer 1),
    ("previousblockhash", .string (List.replicate 64 49)),
    ("rx_epoch_duration", .integer 604800), ("curtime", .integer 1708560000),
    ("bits", .string (List.replicate 8 49)), ("transactions", .array []),
    ("coinbasetxn", .object [("data", .string (List.replicate 120 49))]),
    ("target", .string (List.replicate 64 102))]

def sampleConfig : GbtConfig where
  pkScriptSize := 0
  pkScript := []
  allowGetwork := false
  coinbaseSig := []
  wantLongpoll := false
  rpcUrl := []
  heap _ := 0

def sampleStart : GbtState := ⟨⟨true, false, none, []⟩, Work.zero⟩

def sampleHash : Bytes → Hash := fun _ => .replicate 32 0

def sampleFilled : GbtState :=
  finalState (gbtWorkDecode sampleHash sampleConfig (some sampleTemplate) sampleStart)

theorem sampleFilled_ok :
    gbtWorkDecode sampleHash sampleConfig (some sampleTemplate) sampleStart =
      .ok () sampleFilled :=
  ok_of_reachedEnd (by decide +kernel)

end AlphaMiner
